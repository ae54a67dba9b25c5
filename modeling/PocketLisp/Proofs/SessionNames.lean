import PocketLisp.Proofs.Conversations
import PocketLisp.Proofs.EnteredNames
import PocketLisp.Proofs.PrintedForms

/-!
# The names of a session

Evaluation enters no names but those of the special forms, whatever the store, the environment and
the form are, and also where it is stopped. So the table of a session holds the names of the core
procedures, the names that have been read, and some of those of the special forms.
-/
namespace PocketLisp

/-- Whatever the computation comes to, it enters no names but the given ones. -/
def Run.EntersOnly {α : Type} (names : List String) (x : Run α) : Prop :=
  ∀ s s', x.Leaves s s' → Gains names s s'

theorem Run.exists_leaves {α : Type} (x : Run α) (s : Store) : ∃ s', x.Leaves s s' := by
  cases h : x s with
  | ok a s' => exact ⟨s', .inl ⟨a, h⟩⟩
  | error stop s' => exact ⟨s', .inr ⟨stop, h⟩⟩

namespace Run.EntersOnly
variable {α β : Type} {names : List String}

theorem of_ok {x : Run α} (h : ∀ s, ∃ a s', x s = .ok a s' ∧ Gains names s s') :
    x.EntersOnly names := by
  intro s s' leaves
  obtain ⟨a, t, run, gains⟩ := h s
  rcases leaves with ⟨_, h⟩ | ⟨_, h⟩
  · cases run.symm.trans h
    exact gains
  · cases run.symm.trans h

theorem pure (a : α) : (Pure.pure a : Run α).EntersOnly names :=
  of_ok fun s => ⟨a, s, rfl, .refl s⟩

theorem look (f : Store → α) : (Run.look f).EntersOnly names :=
  of_ok fun s => ⟨f s, s, rfl, .refl s⟩

theorem make {f : Store → α × Store} (h : ∀ s, Gains names s (f s).2) :
    (Run.make f).EntersOnly names :=
  of_ok fun s => ⟨(f s).1, (f s).2, rfl, h s⟩

theorem make_of_tables {f : Store → α × Store} (h : ∀ s, (f s).2.tables = s.tables) :
    (Run.make f).EntersOnly names :=
  make fun s => .of_tables (h s)

theorem intern {name : String} (hname : name ∈ names) (table : Nat) :
    (Run.make fun s => s.intern table name).EntersOnly names :=
  make fun s => (s.gains_intern table name).mono fun n hn => by rwa [List.mem_singleton.1 hn]

theorem of_error {x : Run α} (h : ∀ s, ∃ stop, x s = .error stop s) : x.EntersOnly names := by
  intro s s' leaves
  obtain ⟨stop, run⟩ := h s
  rcases leaves with ⟨_, h⟩ | ⟨_, h⟩
  · cases run.symm.trans h
  · cases run.symm.trans h
    exact .refl s

theorem bind {x : Run α} {k : α → Run β} (first : x.EntersOnly names)
    (next : ∀ a, (k a).EntersOnly names) : (x >>= k).EntersOnly names := by
  rintro s s' (⟨b, h⟩ | ⟨stop, h⟩)
  · obtain ⟨a, t, hx, hk⟩ := Run.bind_eq_ok_iff.1 h
    exact (first s t (.inl ⟨a, hx⟩)).trans (next a t s' (.inl ⟨b, hk⟩))
  · rcases Run.bind_eq_error_iff.1 h with hx | ⟨a, t, hx, hk⟩
    · exact first s s' (.inr ⟨stop, hx⟩)
    · exact (first s t (.inl ⟨a, hx⟩)).trans (next a t s' (.inr ⟨stop, hk⟩))

end Run.EntersOnly

section environments

variable {names : List String}

theorem entersOnly_ofList (vs : List Value) :
    (Run.make fun s => s.ofList vs).EntersOnly names :=
  .make_of_tables fun s => (s.ofList_chain vs).1.tables

theorem Env.entersOnly_get (e : Env) (key : Value) : (e.get key).EntersOnly names := by
  refine .bind (.look _) fun found => ?_
  cases found with
  | some pair => exact .look _
  | none => exact .bind (.look _) fun name => .make_of_tables fun _ => rfl

theorem Env.entersOnly_set (e : Env) (key value : Value) : (e.set key value).EntersOnly names := by
  refine .bind (.look _) fun frame => ?_
  cases frame with
  | some frame =>
    refine .bind (.make_of_tables fun _ => rfl) fun pair =>
      .bind (.make_of_tables fun _ => rfl) fun bindings => ?_
    exact .of_ok fun s => ⟨_, _, rfl, .of_tables (s.relinks_setCar _ _).tables⟩
  | none => exact .of_error fun s => ⟨_, rfl⟩

theorem Env.entersOnly_extend (e : Env) (params args : Value) :
    (e.extend params args).EntersOnly names :=
  .of_ok fun s => ⟨_, _, e.extend_apply params args s,
    .of_tables (s.allocates_extend e params args).tables⟩

theorem entersOnly_asClosure (v : Value) : (asClosure v).EntersOnly names := by
  refine .bind (.look _) fun closure => ?_
  cases closure with
  | some c => exact .pure c
  | none => exact .bind (.look _) fun text => .of_error fun s => ⟨_, rfl⟩

theorem entersOnly_newClosure (args : Value) (env : Env) :
    (newClosure args env).EntersOnly names :=
  .of_ok fun s => ⟨_, _, newClosure_apply args env s, .of_tables rfl⟩

theorem entersOnly_evalDefun (args : Value) (env : Env) :
    (evalDefun args env).EntersOnly names :=
  .bind (.look _) fun name => .bind (.look _) fun rest =>
    .bind (entersOnly_newClosure rest env) fun f =>
      .bind (env.global.entersOnly_set name f) fun _ => .pure name

end environments

section evaluation

variable {names : List String} {width : Nat}

theorem entersOnly_evalList {eval : Value → Run Value}
    (forms : ∀ form, (eval form).EntersOnly names) (fuel : Nat) (done : List Value)
    (list : Value) : (evalList eval fuel done list).EntersOnly names := by
  induction fuel generalizing done list with
  | zero => exact .of_error fun s => ⟨_, rfl⟩
  | succ fuel ih =>
    refine .bind (.look _) fun cell => ?_
    cases cell with
    | none => exact entersOnly_ofList _
    | some c =>
      refine .bind (forms c.car) fun v => ?_
      split
      · exact .pure v
      · exact .bind (.look _) fun rest => ih _ rest

theorem entersOnly_evalBody {eval : Value → Run Value}
    (forms : ∀ form, (eval form).EntersOnly names) (fuel : Nat) (last list : Value) :
    (evalBody eval fuel last list).EntersOnly names := by
  induction fuel generalizing last list with
  | zero => exact .of_error fun s => ⟨_, rfl⟩
  | succ fuel ih =>
    refine .bind (.look _) fun cell => ?_
    cases cell with
    | none => exact .pure last
    | some c => exact .bind (forms c.car) fun v => .bind (.look _) fun rest => ih v rest

variable {answer : Request → Run Value}

theorem entersOnly_callStep (procedure : Procedure) (args : Value) :
    (callStep noHost answer procedure args).EntersOnly names :=
  .of_ok fun s => ⟨_, _, callStep_apply answer procedure args s,
    .of_tables (s.allocates_call procedure args).tables⟩

variable (answers : ∀ request, (answer request).EntersOnly names)
include answers

theorem entersOnly_applyStep (f args : Value) :
    (applyStep noHost width answer f args).EntersOnly names := by
  unfold applyStep
  split
  · exact .pure f
  split
  · exact .pure args
  split
  · exact entersOnly_callStep _ args
  · refine .bind (entersOnly_asClosure _) fun c => .bind (c.env.entersOnly_extend _ args) fun env =>
      entersOnly_evalBody (fun form => answers (.eval form env)) width .nil c.body
  · exact .bind (.look _) fun text => .make_of_tables fun _ => rfl

theorem entersOnly_evalIf (args : Value) (env : Env) :
    (evalIf answer args env).EntersOnly names := by
  refine .bind (.look _) fun test => .bind (answers (.eval test env)) fun condition => ?_
  split
  · exact .pure condition
  · exact .bind (.look _) fun branch => answers (.eval branch env)

theorem entersOnly_evalApplication (op args : Value) (env : Env) :
    (evalApplication noHost width answer op args env).EntersOnly names :=
  .bind (answers (.eval op env)) fun f =>
    .bind (entersOnly_evalList (fun form => answers (.eval form env)) width [] args) fun values =>
      entersOnly_applyStep answers f values

/-- The names of the special forms are all that evaluating a form may enter. -/
theorem entersOnly_evalCell (special : ∀ entry ∈ keywords, entry.1 ∈ names) (op args : Value)
    (env : Env) : (evalCell noHost width answer op args env).EntersOnly names := by
  simp only [keywords, List.forall_mem_cons, List.not_mem_nil, false_implies, implies_true,
    and_true] at special
  obtain ⟨hquote, hif, hlambda, hdefun⟩ := special
  refine .bind (.intern hquote env.table) fun quoteSymbol => ?_
  split
  · exact .look _
  refine .bind (.intern hif env.table) fun ifSymbol => ?_
  split
  · exact entersOnly_evalIf answers args env
  refine .bind (.intern hlambda env.table) fun lambdaSymbol => ?_
  split
  · exact entersOnly_newClosure args env
  refine .bind (.intern hdefun env.table) fun defunSymbol => ?_
  split
  · exact entersOnly_evalDefun args env
  · exact entersOnly_evalApplication answers op args env

theorem entersOnly_evalStep (special : ∀ entry ∈ keywords, entry.1 ∈ names) (form : Value)
    (env : Env) : (evalStep noHost width answer form env).EntersOnly names := by
  unfold evalStep
  split
  · exact env.entersOnly_get _
  · refine .bind (.look _) fun cell => ?_
    cases cell with
    | some c => exact entersOnly_evalCell answers special c.car c.cdr env
    | none => exact .pure form

theorem entersOnly_step (special : ∀ entry ∈ keywords, entry.1 ∈ names) (request : Request) :
    (step noHost width answer request).EntersOnly names := by
  cases request with
  | eval form env => exact entersOnly_evalStep answers special form env
  | apply f args => exact entersOnly_applyStep answers f args
  | call procedure args => exact entersOnly_callStep procedure args

end evaluation

/-- Evaluation without host procedures enters no names but those of the special forms. -/
theorem entersOnly_run (width depth : Nat) (request : Request) :
    (run noHost width depth request).EntersOnly ["quote", "if", "lambda", "defun"] := by
  induction depth generalizing request with
  | zero => exact .of_error fun s => ⟨_, rfl⟩
  | succ depth ih => exact entersOnly_step ih (by decide) request

/-- `Heard root texts s`: a session that has heard the texts, the latest first, has the store `s`.
It may have been asked for the answer to a text or for its value, also where that was refused or out
of bounds, or to run a file, of which it hears the lines up to the first fault. -/
inductive Heard (root : Env) : List String → Store → Prop where
  | fresh {s : Store} (h : Env.newSession Store.empty = .ok root s) : Heard root [] s
  | rep {texts : List String} {s s' : Store} {width depth : Nat} {line : String}
      (h : Heard root texts s) (answer : ((Engine.core width depth).rep root line).Leaves s s') :
      Heard root (line :: texts) s'
  | eval {texts : List String} {s s' : Store} {width depth : Nat} {text : String}
      (h : Heard root texts s)
      (value : ((Engine.core width depth).evalText root text).Leaves s s') :
      Heard root (text :: texts) s'
  | load {texts lines : List String} {s s' : Store} {width depth : Nat} {c : Conversation}
      (h : Heard root texts s) (run : (Engine.core width depth).load root lines s = .ok c s') :
      Heard root (((lines.filter fun line => !isBlankText line).take
        (c.replies.length + 1)).reverse ++ texts) s'

/-- What the table of a session holds: the names of the core procedures and those that have been
read, and no others but those of the special forms. -/
structure Accounts (table : Nat) (texts : List String) (s : Store) : Prop where
  inStore : table < s.tables.size
  known : ∀ name, name ∈ ["car", "cdr", "cons", "t"] ∨
    (∃ text ∈ texts, name ∈ namesRead text.toList) → s.isInterned table name = true
  only : ∀ name, s.isInterned table name = true →
    (name ∈ ["car", "cdr", "cons", "t"] ∨ ∃ text ∈ texts, name ∈ namesRead text.toList) ∨
      name ∈ ["quote", "if", "lambda", "defun"]

section sessions

variable {root : Env} {width depth : Nat} {table : Nat} {line : String} {texts : List String}
  {s s₁ s' : Store}

theorem Engine.rep_leaves (h : ((Engine.core width depth).rep root line).Leaves s s') :
    ∃ s₁, (read root.table line.toList).Leaves s s₁ ∧
      Gains ["quote", "if", "lambda", "defun"] s₁ s' := by
  rcases h with ⟨out, h⟩ | ⟨stop, h⟩
  · obtain ⟨form, rest, s₁, v, reading, evaluation, -⟩ := Engine.rep_eq_ok_iff.1 h
    exact ⟨s₁, .inl ⟨_, reading⟩, entersOnly_run width depth _ s₁ s' (.inl ⟨v, evaluation⟩)⟩
  · rcases Engine.rep_eq_error_iff.1 h with refusal | ⟨form, rest, s₁, reading, evaluation⟩
    · exact ⟨s', .inr ⟨stop, refusal⟩, .refl s'⟩
    · exact ⟨s₁, .inl ⟨_, reading⟩, entersOnly_run width depth _ s₁ s' (.inr ⟨stop, evaluation⟩)⟩

theorem Engine.rep_leaves_of_evalText {e : Engine} (h : (e.evalText root line).Leaves s s') :
    (e.rep root line).Leaves s s' := by
  rcases h with ⟨v, h⟩ | ⟨stop, h⟩
  · exact .inl ⟨_, Engine.rep_eq_ok_iff_evalText.2 ⟨v, h, rfl⟩⟩
  · exact .inr ⟨stop, Engine.evalText_eq_error_iff.1 h⟩

theorem Engine.rep_leaves_of_reply {e : Engine} {outcome : Except Fault Reply}
    (h : (e.reply root line).attempt s = .ok outcome s') : (e.rep root line).Leaves s s' := by
  rcases Run.attempt_eq_ok_iff.1 h with ⟨r, -, answer⟩ | ⟨f, -, refusal⟩
  · rcases Engine.reply_eq_ok_iff.1 answer with ⟨t, transcript, -⟩ | ⟨_, _, misuse, -⟩
    · exact .inl ⟨t.value, Engine.rep_eq_ok_iff_transcribe.2 ⟨t, transcript, rfl⟩⟩
    · exact .inr ⟨_, Engine.rep_eq_error_iff_transcribe.2 misuse⟩
  · have transcript := (Engine.reply_eq_fault_iff.1 refusal).1
    exact .inr ⟨_, Engine.rep_eq_error_iff_transcribe.2 transcript⟩

namespace Accounts

theorem fresh (h : Env.newSession Store.empty = .ok root s) : Accounts root.table [] s := by
  cases newSession_eq.symm.trans h
  refine ⟨by decide, fun name hname => ?_, fun name hname => .inl (.inl ?_)⟩
  · rcases hname with hname | ⟨_, hmem, -⟩
    · revert name
      decide
    · exact absurd hmem List.not_mem_nil
  · simp only [Store.isInterned, Store.findSymbol?, List.find?_isSome, decide_eq_true_eq] at hname
    obtain ⟨sym, hsym, rfl⟩ := hname
    revert sym
    decide

theorem hear (h : Accounts root.table texts s)
    (answer : ((Engine.core width depth).rep root line).Leaves s s') :
    Accounts root.table (line :: texts) s' := by
  obtain ⟨s₁, reading, evaluation⟩ := Engine.rep_leaves answer
  obtain ⟨gains, entered⟩ := gains_read h.inStore reading
  refine ⟨?_, fun name hname => evaluation.isInterned ?_, fun name hname => ?_⟩
  · rw [evaluation.tableCount, gains.tableCount]
    exact h.inStore
  · rcases hname with core | ⟨text, hmem, hname⟩
    · exact gains.isInterned (h.known name (.inl core))
    · rcases List.mem_cons.1 hmem with rfl | hmem
      · exact entered name hname
      · exact gains.isInterned (h.known name (.inr ⟨text, hmem, hname⟩))
  · rcases evaluation.only _ name hname with hname | special
    · rcases gains.only _ name hname with hname | hname
      · refine (h.only name hname).imp_left (.imp_right ?_)
        exact fun ⟨text, hmem, hname⟩ => ⟨text, List.mem_cons_of_mem line hmem, hname⟩
      · exact .inl (.inr ⟨line, List.mem_cons_self, hname⟩)
    · exact .inr special

/-- Lines add the names that are read off them, up to the first that faults. -/
theorem lines {lines : List String} {c : Conversation} (h : Accounts root.table texts s)
    (run : answerLines ((Engine.core width depth).reply root) lines s = .ok c s') :
    Accounts root.table ((lines.take (c.replies.length + 1)).reverse ++ texts) s' := by
  induction lines generalizing s c texts with
  | nil =>
    obtain ⟨rfl, rfl⟩ := answerLines_nil_eq_ok_iff.1 run
    exact h
  | cons line lines ih =>
    rcases answerLines_cons_eq_ok_iff.1 run with
      ⟨r, t, c', attempt, others, rfl⟩ | ⟨f, attempt, rfl⟩
    · have rest := ih (h.hear (Engine.rep_leaves_of_reply attempt)) others
      simpa using rest
    · simpa using h.hear (Engine.rep_leaves_of_reply attempt)

end Accounts

theorem Heard.accounts (h : Heard root texts s) : Accounts root.table texts s := by
  induction h with
  | fresh h => exact .fresh h
  | rep _ answer ih => exact ih.hear answer
  | eval _ value ih => exact ih.hear (Engine.rep_leaves_of_evalText value)
  | load _ run ih => exact ih.lines run

end sessions

/-- Reading enters the names in the text that the reader comes to, for a datum without errors those
that it mentions, and a second reading enters nothing and has the same outcome. Evaluation enters at
most the names of the special forms. So the table of a session holds the names of the core
procedures, all names that have been read, and some of those four. -/
theorem names_entered :
    (∀ (s : Store) (table : Nat) (text : List Char), table < s.tables.size → NoOverlong text →
      ∃ v rest s' d, read table text s = .ok (v, rest) s' ∧ Denotes s' table v d ∧
        (∀ t name sym, s.findSymbol? t name = some sym → s'.findSymbol? t name = some sym) ∧
        (∀ name, s'.isInterned table name = true ↔
          s.isInterned table name = true ∨ name ∈ namesRead text) ∧
        (∀ name ∈ namesRead text, NamedIn text name) ∧
        (ErrorFree d → ∀ name, s'.isInterned table name = true ↔
          s.isInterned table name = true ∨ name ∈ mentioned d) ∧
        ∀ u, Extends s' u → table < u.tables.size → ∃ v' u',
          read table text u = .ok (v', rest) u' ∧ u'.tables = u.tables ∧
          Denotes u' table v d ∧ Denotes u' table v' d ∧ u'.equal v v' = true) ∧
    (∀ width depth form env s s', ((Engine.core width depth).eval form env).Leaves s s' →
      ∀ table name, s'.isInterned table name = true →
        s.isInterned table name = true ∨ name ∈ ["quote", "if", "lambda", "defun"]) ∧
    ∀ root texts s, Heard root texts s → ∃ special ⊆ ["quote", "if", "lambda", "defun"],
      ∀ name, s.isInterned root.table name = true ↔ name ∈ ["car", "cdr", "cons", "t"] ∨
        (∃ text ∈ texts, name ∈ namesRead text.toList) ∨ name ∈ special := by
  refine ⟨fun s table text hT short => ?_, fun width depth form env s s' leaves table name =>
    (entersOnly_run width depth _ s s' leaves).only table name, fun root texts s heard => ?_⟩
  · obtain ⟨names, d, rest, _, v, s', hform, hread, -, unfolds, -⟩ := exists_read hT short
    have names := isInterned_read hT (.inl ⟨_, hread⟩)
    refine ⟨v, rest, s', d, hread, unfolds.denotes, (gains_read hT (.inl ⟨_, hread⟩)).1.symbols,
      names, fun name => NamedIn.of_namesRead, fun errorFree name => ?_, fun u later hu => ?_⟩
    · rw [names name, mem_namesRead_iff hform errorFree]
    · obtain ⟨v', u', again, tables, first, second⟩ :=
        read_again hT hread unfolds.denotes later hu
      exact ⟨v', u', again, tables, first, second, first.equal second⟩
  · have accounts := heard.accounts
    refine ⟨["quote", "if", "lambda", "defun"].filter (s.isInterned root.table ·),
      List.filter_subset_self _, fun name => ⟨fun hname => ?_, fun hname => ?_⟩⟩
    · rcases accounts.only name hname with known | special
      · exact known.imp_right .inl
      · exact .inr (.inr (List.mem_filter.2 ⟨special, hname⟩))
    · rcases hname with core | read | special
      · exact accounts.known name (.inl core)
      · exact accounts.known name (.inr read)
      · exact (List.mem_filter.1 special).2

/-- A fresh session that hears a list without an end: the names in front of the end are entered,
that of the quote among them. A list with a quoted symbol enters three names, and reading it again
enters none. -/
theorem names_entered_unfinished : ∃ root s u v v' d rest s₁ s₂,
    Env.newSession Store.empty = .ok root s ∧ root.table < s.tables.size ∧
    Heard root ["(f 'a"] u ∧ (∀ name ∈ ["f", "a", "quote"], u.isInterned root.table name = true) ∧
    u.isInterned root.table "g" = false ∧
    NoOverlong "('b c)".toList ∧ read root.table "('b c)".toList s = .ok (v, rest) s₁ ∧
    Denotes s₁ root.table v d ∧ ErrorFree d ∧
    (∀ name, s₁.isInterned root.table name = true ↔
      s.isInterned root.table name = true ∨ name ∈ ["quote", "b", "c"]) ∧
    read root.table "('b c)".toList s₁ = .ok (v', rest) s₂ ∧ s₂.tables = s₁.tables ∧
    s₂.equal v v' = true := by
  obtain ⟨reading, -, session⟩ := names_entered
  have fresh := newSession_eq
  generalize hs : Store.mk _ _ _ _ _ = s at fresh
  generalize hroot : Env.mk _ _ _ _ _ = root at fresh
  have hT : root.table < s.tables.size := by
    subst hs hroot
    decide
  have short : NoOverlong "('b c)".toList := noOverlong_of_length_le (by decide)
  obtain ⟨v, rest, s₁, d, hread, denotes, symbols, -, -, exact, again⟩ :=
    reading s root.table _ hT short
  have form : (match readForm "('b c)".toList [] "('b c)".toList (Nat.le_succ _) with
      | .form _ d _ _ => some d
      | .overlong _ _ => none) =
        some (.ofList .nil [quoted (.atom (.sym "b")), .atom (.sym "c")]) := by decide +kernel
  have datum : d = .ofList .nil [quoted (.atom (.sym "b")), .atom (.sym "c")] := by
    obtain ⟨-, names, e, short', hform, unfolds, -⟩ := read_spec hT hread
    rw [hform] at form
    cases form
    exact denotes.unique unfolds.denotes
  subst datum
  obtain ⟨v', s₂, hread', tables, -, -, same⟩ := again s₁ (.refl s₁)
    ((gains_read hT (.inl ⟨_, hread⟩)).1.tableCount ▸ hT)
  obtain ⟨u, leaves⟩ := ((Engine.core 4 4).rep root "(f 'a").exists_leaves s
  have heard : Heard root ["(f 'a"] u := .rep (.fresh fresh) leaves
  obtain ⟨special, sub, names⟩ := session root _ u heard
  have entered : namesRead "(f 'a".toList = ["quote", "a", "f"] := by decide +kernel
  simp only [List.mem_singleton, exists_eq_left, entered] at names
  refine ⟨root, s, u, v, v', _, rest, s₁, s₂, fresh, hT, heard, fun name hname => ?_, ?_, short,
    hread, denotes, by decide, fun name => ?_, hread', tables, same⟩
  · refine (names name).2 (.inr (.inl ?_))
    simp only [List.mem_cons, List.not_mem_nil, or_false] at hname ⊢
    tauto
  · refine Bool.not_eq_true _ ▸ fun hg => ?_
    rcases (names "g").1 hg with h | h | h
    · exact absurd h (by decide)
    · exact absurd h (by decide)
    · exact absurd (sub h) (by decide)
  · rw [exact (by decide) name]
    simp [mentioned, quoted, Sexp.ofList, Atom.names]

end PocketLisp
