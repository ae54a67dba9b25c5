import PocketLisp.Proofs.Faultlessness
import PocketLisp.Proofs.ReaderRuns

/-!
# Errors are never stored

An error is the outcome of an evaluation, but never a part of a value. An evaluation that starts
with a form and an environment without errors makes nothing that holds one. Reading may hide an
error behind quotes; evaluating such a form takes one quote away and stores nothing. So what a
session has defined holds no error, whatever its lines have been.
-/
namespace PocketLisp

def Store.Has (s : Store) : Value → Prop
  | .cons a => a < s.cells.size
  | .expr k => k < s.closures.size
  | _ => True

/-- All that the value reaches is in the store, and no error is among it. -/
def Clean (s : Store) (v : Value) : Prop := ∀ w, s.Reaches v w → s.Has w ∧ w.isError = false

def Env.Clean (s : Store) (env : Env) : Prop :=
  PocketLisp.Clean s env.frames ∧ PocketLisp.Clean s env.globalFrames

def Realm.whole : Realm := ⟨fun _ => True, fun _ _ => True⟩

private theorem exists_getElem?_iff {α : Type} {xs : Array α} {i : Nat} :
    (∃ x, xs[i]? = some x) ↔ i < xs.size :=
  ⟨fun ⟨_, h⟩ => (Array.getElem?_eq_some_iff.1 h).1, fun h => ⟨_, Array.getElem?_eq_getElem h⟩⟩

theorem Realm.admits_whole_iff {s : Store} {v : Value} :
    Realm.whole.Admits s v ↔ s.Has v ∧ v.isError = false := by
  cases v <;> simp [Admits, whole, Store.Has, Value.isError, exists_getElem?_iff]

theorem clean_iff {s : Store} {v : Value} : Clean s v ↔ Confined .whole s v :=
  forall₂_congr fun _ _ => Realm.admits_whole_iff.symm

theorem Env.clean_iff {s : Store} {env : Env} : env.Clean s ↔ env.ConfinedTo .whole s := by
  rw [Env.Clean, PocketLisp.clean_iff, PocketLisp.clean_iff]
  constructor
  · rintro ⟨frames, globalFrames⟩
    exact ⟨trivial, frames, globalFrames⟩
  · rintro ⟨-, frames, globalFrames⟩
    exact ⟨frames, globalFrames⟩

/-- The frames of a fresh session bind symbols and core procedures. -/
theorem newSession_confined {root : Env} {s : Store} (h : Env.newSession Store.empty = .ok root s) :
    root.ConfinedTo .whole s := by
  have one_frame : ∀ {env : Env} {s : Store}, env.globalFrames = env.frames →
      Confined .whole s env.frames → env.ConfinedTo .whole s :=
    fun same frames => ⟨trivial, frames, same ▸ frames⟩
  cases newSession_eq.symm.trans h
  refine one_frame rfl (.cons rfl trivial ?_ .nil)
  refine .of_chain (.cons rfl (.cons rfl (.cons rfl (.cons rfl .nil)))) (fun _ _ => trivial) ?_ .nil
  simp only [List.forall_mem_cons, List.not_mem_nil, false_implies, implies_true, and_true]
  exact ⟨.cons rfl trivial .sym .sym, .cons rfl trivial .sym .subr, .cons rfl trivial .sym .subr,
    .cons rfl trivial .sym .subr⟩

theorem Realm.fresh_whole {n : Nat} (a : Nat) (_ : n ≤ a) : Realm.whole.cells a := trivial

/-- A tree without errors is confined to each realm that its cells belong to. -/
theorem Unfolds.confined {R : Realm} {s : Store} {table : Nat} {within : Nat → Prop} {v : Value}
    {d : Datum} (h : Unfolds s (s.IsAtom table) within v d) (errorFree : ErrorFree d)
    (inside : ∀ a, within a → R.cells a) : Confined R s v := by
  induction h with
  | @atom v a ha =>
    cases a with
    | nil => exact ha ▸ .nil
    | num n =>
      obtain ⟨serial, rfl⟩ := ha
      exact .num
    | sym name =>
      obtain ⟨sym, rfl, -⟩ := ha
      exact .sym
    | error message => exact absurd rfl (errorFree message)
  | cons cell kind _ _ ihCar ihCdr =>
    exact .cons cell (inside _ kind) (ihCar errorFree.1) (ihCdr errorFree.2)

theorem Reads.isErrorFree {text rest : List Char} {d : Datum} (h : Reads Converts text d rest) :
    ErrorFree d :=
  (h.imp fun _ _ _ atom => atom.1).errorFree

/-- An error is its own value, and a quoted form has what is behind the quote. -/
theorem Wrapped.eval {s : Store} {env : Env} {form : Value} {d : Datum} (h : Wrapped d)
    (denotes : Denotes s env.table form d) :
    (∃ serial message, form = .error serial message) ∨
      ∃ a op args, form = .cons a ∧ s.cells[a]? = some ⟨op, args⟩ ∧
        s.keyword env.table op = (some .quote, s) := by
  cases h with
  | error message =>
    cases denotes with
    | atom ha =>
      obtain ⟨serial, rfl⟩ := ha
      exact .inl ⟨serial, message, rfl⟩
  | quote inner =>
    cases denotes with
    | cons cell _ head _ =>
      cases head with
      | atom ha =>
        obtain ⟨sym, rfl, own⟩ := ha
        refine .inr ⟨_, _, _, rfl, cell, ?_⟩
        have interned := Store.intern_of_findSymbol? own (by decide : "quote" ≠ "nil")
        simp only [Store.keyword, keywords, Store.keywordAmong, interned, if_true]

/-- The first step of the evaluation of a wrapped error gives its value and stores nothing. -/
theorem Step.of_wrapped {s : Store} {env : Env} {form : Value} {d : Datum} {m' : Moment}
    {ds : List Defined} (h : Step ⟨.ask (.eval form env) [], s⟩ ds m') (wrapped : Wrapped d)
    (denotes : Denotes s env.table form d) : ∃ v, m' = ⟨.give v [], s⟩ := by
  rcases wrapped.eval denotes with ⟨serial, message, rfl⟩ | ⟨a, op, args, rfl, cell, head⟩
  · cases h with
    | self _ _ => exact ⟨_, rfl⟩
  · cases h with
    | self _ noCell =>
      rw [Store.cell?, cell] at noCell
      cases noCell
    | quote cell' head' =>
      cases cell.symm.trans cell'
      cases head.symm.trans head'
      exact ⟨_, rfl⟩
    | test cell' head' =>
      cases cell.symm.trans cell'
      cases head.symm.trans head'
    | lambda cell' head' =>
      cases cell.symm.trans cell'
      cases head.symm.trans head'
    | defun cell' head' _ _ =>
      cases cell.symm.trans cell'
      cases head.symm.trans head'
    | function cell' head' =>
      cases cell.symm.trans cell'
      cases head.symm.trans head'

/-- What an evaluation in a session is about: clean values, or a wrapped error and its value. -/
def Moment.Tidy (root : Env) (m : Moment) : Prop :=
  m.ConfinedTo .whole ∨
    (∃ form d, m.stage = .ask (.eval form root) [] ∧ Wrapped d ∧
      Denotes m.store root.table form d) ∨
    ∃ v, m.stage = .give v []

theorem Move.tidy {root : Env} {m m' : Moment} {ds : List Defined} (h : Move root m ds m')
    (hT : root.table < m.store.tables.size) (hroot : root.ConfinedTo .whole m.store)
    (tidy : m.Tidy root) : root.ConfinedTo .whole m'.store ∧ m'.Tidy root := by
  cases h with
  | step step =>
    rcases tidy with confined | ⟨form, d, hstage, wrapped, denotes⟩ | ⟨v, hstage⟩
    · obtain ⟨keep, confined'⟩ := step.confined confined Realm.fresh_whole
      exact ⟨hroot.keep keep, .inl confined'⟩
    · obtain ⟨stage, s⟩ := m
      cases hstage
      obtain ⟨v, rfl⟩ := step.of_wrapped wrapped denotes
      exact ⟨hroot, .inr (.inr ⟨v, rfl⟩)⟩
    · obtain ⟨stage, s⟩ := m
      cases hstage
      cases step
  | line reading =>
    obtain ⟨adds, -, d, -, -, unfolds, outcome⟩ := read_spec hT reading
    have hroot' := hroot.keep fun v hv => hv.grow adds.toExtends
    refine ⟨hroot', ?_⟩
    rcases outcome with reads | wrapped
    · have form : Confined .whole _ _ := unfolds.confined reads.isErrorFree fun a _ => trivial
      exact .inl ⟨⟨form, hroot'⟩, by simp⟩
    · exact .inr (.inl ⟨_, d, rfl, wrapped, unfolds.denotes⟩)
  | refused reading =>
    have adds := Reading.store_leaves _ hT (.inr ⟨_, reading⟩)
    exact ⟨hroot.keep fun v hv => hv.grow adds.toExtends, .inl trivial⟩
  | answered => exact ⟨hroot, .inl trivial⟩

/-- No error is reached from the global environment of a session at any moment. -/
theorem Reached.confined {root : Env} {m : Moment} (h : Reached root m) :
    root.ConfinedTo .whole m.store ∧ m.Tidy root := by
  obtain ⟨s, ds, fresh, course⟩ := h
  induction course with
  | refl => exact ⟨newSession_confined fresh, .inl trivial⟩
  | next earlier last ih =>
    obtain ⟨hroot, tidy⟩ := ih
    obtain ⟨global, situated⟩ := Reached.situated ⟨s, _, fresh, earlier⟩
    exact last.tidy situated.table hroot tidy

theorem Wrapped.noFault {s : Store} {env : Env} {form : Value} {d : Datum} (h : Wrapped d)
    (denotes : Denotes s env.table form d) (width depth : Nat) :
    NoFault (run noHost width depth (.eval form env)) s := by
  cases depth with
  | zero => exact fun f s' h => by cases h
  | succ depth =>
    rcases h.eval denotes with ⟨serial, message, rfl⟩ | ⟨a, op, args, rfl, cell, head⟩
    · have symbol : ∀ sym, Value.error serial message ≠ .sym sym := by simp
      exact .of_eq (evalStep_self width (run noHost width depth) symbol rfl) (.of_ok rfl)
    · refine .of_eq ((evalStep_cell width _ cell).trans (evalCell_apply width _ op args env s)) ?_
      rw [head]
      exact .of_ok rfl

/-- The stores between the lines of a fresh session: each line is answered or refused. -/
inductive Served (root : Env) : Store → Prop where
  | start {s : Store} (h : Env.newSession Store.empty = .ok root s) : Served root s
  | answered {s s' : Store} {width depth : Nat} {line out : String} (h : Served root s)
      (answer : (Engine.core width depth).rep root line s = .ok out s') : Served root s'
  | refused {s s' : Store} {width depth : Nat} {line : String} {f : Fault} (h : Served root s)
      (refusal : (Engine.core width depth).rep root line s = .error (.fault f) s') : Served root s'

def Realm.rooted (global : Nat) : Realm := ⟨fun _ => True, fun _ v => v = .cons global⟩

theorem Realm.framed_rooted (global bound : Nat) : (Realm.rooted global).Framed bound :=
  ⟨fun _ _ h => ⟨global, h⟩, fun _ _ => trivial⟩

theorem Confined.rooted {s : Store} {global : Nat} {v : Value} (h : Confined .whole s v)
    (rooted : Rooted global s) : Confined (.rooted global) s v :=
  h.mono (fun _ _ => id) fun k c closure _ => rooted k c closure

/-- The evaluation of a line that has been read does not fault. -/
theorem Reached.noFault {root : Env} {text rest : List Char} {form : Value} {s s₁ : Store}
    (h : Reached root ⟨.idle, s⟩) (reading : read root.table text s = .ok (form, rest) s₁)
    (width depth : Nat) : NoFault ((Engine.core width depth).eval form root) s₁ := by
  obtain ⟨s₀, ds, fresh, course⟩ := h
  have reached : Reached root ⟨.ask (.eval form root) [], s₁⟩ :=
    ⟨s₀, _, fresh, course.next (.line reading)⟩
  obtain ⟨hroot, tidy⟩ := reached.confined
  obtain ⟨global, situated⟩ := reached.situated
  have rooted : Rooted global s₁ :=
    fun k c closure => (situated.environments c.env (.inr (.inl ⟨k, c, closure, rfl⟩))).root
  rcases tidy with ⟨⟨hform, -⟩, -⟩ | ⟨_, d, hstage, wrapped, denotes⟩ | ⟨v, hstage⟩
  · have own := (situated.environments root (.inl rfl)).root
    exact run_noFault (Realm.framed_rooted global 0) (Nat.zero_le _) (hform.rooted rooted)
      ⟨own, hroot.frames.rooted rooted, hroot.globalFrames.rooted rooted⟩
  · cases hstage
    exact wrapped.noFault denotes width depth
  · cases hstage

/-- A line at which a session faults cannot be read. -/
theorem Reached.read_of_refusal {root : Env} {width depth : Nat} {line : String} {f : Fault}
    {s s' : Store} (h : Reached root ⟨.idle, s⟩)
    (refusal : (Engine.core width depth).rep root line s = .error (.fault f) s') :
    read root.table line.toList s = .error (.fault f) s' := by
  rcases Engine.rep_eq_error_iff.1 refusal with reading | ⟨form, rest, s₁, reading, evaluation⟩
  · exact reading
  · exact absurd evaluation (h.noFault reading width depth f s')

theorem Served.reached {root : Env} {s : Store} (h : Served root s) :
    Reached root ⟨.idle, s⟩ := by
  induction h with
  | start h => exact ⟨_, [], h, .refl⟩
  | answered _ answer ih =>
    obtain ⟨s₀, ds, fresh, course⟩ := ih
    obtain ⟨-, -, -, -, ds', -, -, line⟩ := course_of_rep answer
    exact ⟨s₀, _, fresh, course.trans line⟩
  | refused _ refusal ih =>
    have reading := ih.read_of_refusal refusal
    obtain ⟨s₀, ds, fresh, course⟩ := ih
    exact ⟨s₀, _, fresh, course.next (.refused reading)⟩

/-- A clean form in a clean environment has an error or a clean value, and what was clean stays
clean. On the way no environment binds an error, and no list of arguments that is handed to a
function holds one. So nothing that a session defines holds an error, at no moment of an evaluation
and after no lines. -/
theorem errors_never_stored :
    (∀ (s : Store) (env : Env) (form : Value), env.Clean s → Clean s form →
      (∀ width depth v s', (Engine.core width depth).eval form env s = .ok v s' →
        (v.isError = true ∨ Clean s' v) ∧ env.Clean s' ∧ ∀ x, Clean s x → Clean s' x) ∧
      ∀ ds m, Course Step ⟨.ask (.eval form env) [], s⟩ ds m →
        (∀ e ∈ m.stage.envs, e.Clean m.store) ∧
        ∀ f args w, m.stage = .ask (.apply f args) w →
          args.isError = true ∨ Clean m.store args) ∧
    (∀ root m, Reached root m → root.Clean m.store) ∧
    ∀ root s, Served root s → root.Clean s := by
  have reached : ∀ root m, Reached root m → root.Clean m.store :=
    fun root m h => Env.clean_iff.2 h.confined.1
  refine ⟨fun s env form henv hform => ⟨?_, ?_⟩, reached, fun root s h => reached root _ h.reached⟩
  · intro width depth v s' evaluation
    rw [Env.clean_iff] at henv ⊢
    simp only [clean_iff] at hform ⊢
    obtain ⟨keep, value, -⟩ :=
      (answers_of_run evaluation).confined ⟨hform, henv⟩ Realm.fresh_whole
    exact ⟨value, henv.keep keep, keep⟩
  · intro ds m course
    rw [Env.clean_iff] at henv
    rw [clean_iff] at hform
    obtain ⟨-, confined, -⟩ := course.confined ⟨⟨hform, henv⟩, by simp⟩ Realm.fresh_whole
    refine ⟨fun e he => Env.clean_iff.2 (confined.envs e he), fun f args w hstage => ?_⟩
    obtain ⟨stage, t⟩ := m
    cases hstage
    exact confined.1.2.imp_right clean_iff.2

/-- A quoted closing parenthesis leaves no error behind, and a pair that is made after it is free of
errors. -/
theorem errors_never_stored_after_unreadable : ∃ root s out s₁, Served root s ∧
    (Engine.core 2 2).rep root "')" s = .ok out s₁ ∧ root.Clean s₁ ∧
    ∃ form s₂ v s₃, root.Clean s₂ ∧ Clean s₂ form ∧
      (Engine.core 4 4).eval form root s₂ = .ok v s₃ ∧ v.isError = false ∧ Clean s₃ v := by
  have form : (match readForm "')".toList [] "')".toList (Nat.le_succ _) with
      | .form names d rest _ => some (names, d, rest)
      | .overlong _ _ => none) = some (["quote"],
        quoted (.atom (.error "invalid syntax: )")), []) := by decide +kernel
  split at form
  · next names d rest short reading =>
    cases form
    have pair : ∀ {root : Env} {s : Store}, root.Clean s →
        root.Clean (s.ofList [.sym ⟨4, "cons"⟩, .sym ⟨5, "t"⟩, .sym ⟨5, "t"⟩]).2 ∧
        Clean (s.ofList [.sym ⟨4, "cons"⟩, .sym ⟨5, "t"⟩, .sym ⟨5, "t"⟩]).2
          (s.ofList [.sym ⟨4, "cons"⟩, .sym ⟨5, "t"⟩, .sym ⟨5, "t"⟩]).1 := by
      intro root s clean
      have grow := (s.ofList_chain [.sym ⟨4, "cons"⟩, .sym ⟨5, "t"⟩, .sym ⟨5, "t"⟩]).1
      refine ⟨Env.clean_iff.2 ((Env.clean_iff.1 clean).keep fun v hv => hv.grow grow.toExtends),
        clean_iff.2 (.ofList ?_ Realm.fresh_whole)⟩
      simp only [List.forall_mem_cons, List.not_mem_nil, false_implies, implies_true, and_true]
      exact ⟨.sym, .sym, .sym⟩
    have start := Served.start newSession_eq
    obtain ⟨cleanRoot, cleanForm⟩ := pair (errors_never_stored.2.2 _ _ start)
    refine ⟨_, _, _, _, start, Engine.rep_eq_ok_iff.2
      ⟨_, _, _, _, read_of_readForm reading _, rfl, rfl⟩, ?_, _, _, _, _, cleanRoot, cleanForm,
      rfl, rfl, ?_⟩
    · exact errors_never_stored.2.2 _ _ (@Served.answered _ _ _ 2 2 "')" _ start
        (Engine.rep_eq_ok_iff.2 ⟨_, _, _, _, read_of_readForm reading _, rfl, rfl⟩))
    · exact ((errors_never_stored.1 _ _ _ cleanRoot cleanForm).1 4 4 _ _ rfl).1.resolve_left
        (by decide)
  · cases form

end PocketLisp
