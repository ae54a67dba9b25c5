import PocketLisp.Proofs.FirstOrderForms
import PocketLisp.Proofs.SessionBindings

/-!
# Sessions that make no functions

As long as the lines of a fresh session mention neither `lambda` nor `defun`, the session has no
closures and the bindings that it started with. So each line is answered or refused, under bounds
that its first form determines, however long the session has been.
-/
namespace PocketLisp

namespace Sexp
variable {α β : Type}

@[simp] theorem nesting_map (f : α → β) (t : Sexp α) : (t.map f).nesting = t.nesting := by
  induction t with
  | atom _ => rfl
  | cons a d iha ihd => simp only [map, nesting, iha, ihd]

@[simp] theorem pairs_map (f : α → β) (t : Sexp α) : (t.map f).pairs = t.pairs := by
  induction t with
  | atom _ => rfl
  | cons a d iha ihd => simp only [map, pairs, iha, ihd]

end Sexp

/-- The form that is read from the line mentions neither `lambda` nor `defun`. -/
def FirstOrder (line : String) : Prop :=
  ∀ d ∈ firstForm? line, "lambda" ∉ mentioned d ∧ "defun" ∉ mentioned d

theorem firstOrder_toPure {d : Datum} (noLambda : "lambda" ∉ mentioned d)
    (noDefun : "defun" ∉ mentioned d) : (d.map Atom.toPure).All PureAtom.FirstOrder := by
  induction d with
  | atom a =>
    cases a with
    | sym name =>
      simp only [mentioned, Atom.names, List.mem_singleton] at noLambda noDefun
      exact ⟨Ne.symm noLambda, Ne.symm noDefun⟩
    | _ => trivial
  | cons a d iha ihd =>
    simp only [mentioned, List.mem_append, not_or] at noLambda noDefun
    exact ⟨iha noLambda.1 noDefun.1, ihd noLambda.2 noDefun.2⟩

def coreEntries : List (PureValue × PureValue) :=
  coreBindings.map fun b => (.atom (.sym b.1), b.2)

theorem noClosure_of_core {name : String} {x : PureValue}
    (h : (Globals.listed coreEntries).lookup name = some x) : x.All PureAtom.NoClosure := by
  have listed : Globals.listed coreEntries = .ofBindings coreBindings := rfl
  rw [listed, Globals.lookup_ofBindings] at h
  obtain ⟨before, after, split, -⟩ := List.lookup_eq_some_iff.1 h
  have plain : ∀ b ∈ coreBindings, b.2.All PureAtom.NoClosure := by
    simp only [coreBindings, List.forall_mem_cons]
    exact ⟨trivial, trivial, trivial, trivial, List.forall_mem_nil _⟩
  exact plain (name, x) (split ▸ by simp)

/-- What a fresh session comes to by calls that read first-order lines only. A conversation reads
the lines that it answers, and the one at which it ends. -/
inductive FirstOrderSession (root : Env) : Store → Prop where
  | fresh {s : Store} (fresh : Env.newSession Store.empty = .ok root s) : FirstOrderSession root s
  | rep {s s' : Store} {width depth : Nat} {line : String} {outcome : Except Fault String}
      (earlier : FirstOrderSession root s) (firstOrder : FirstOrder line)
      (answer : ((Engine.core width depth).rep root line).attempt s = .ok outcome s') :
      FirstOrderSession root s'
  | eval {s s' : Store} {width depth : Nat} {line : String} {outcome : Except Fault Value}
      (earlier : FirstOrderSession root s) (firstOrder : FirstOrder line)
      (value : ((Engine.core width depth).evalText root line).attempt s = .ok outcome s') :
      FirstOrderSession root s'
  | converse {s s' : Store} {width depth : Nat} {lines : List String} {c : Conversation}
      (earlier : FirstOrderSession root s)
      (firstOrder : ∀ line ∈ lines.take (c.replies.length + 1), FirstOrder line)
      (run : (Engine.core width depth).converse root lines s = .ok c s') :
      FirstOrderSession root s'

/-- A session between two lines that has the bindings of the core procedures and no closures. -/
structure Pristine (root : Env) (s : Store) : Prop where
  ready : Ready root coreEntries s
  noClosures : s.closures = #[]

section session

variable {root : Env} {line : String} {lines : List String} {s s' : Store} {width depth : Nat}

/-- A line without a form is refused as it is read. -/
theorem rep_of_noForm (form : firstForm? line = none) (root : Env) (s : Store) :
    ∃ digits s', (∀ width depth, (Engine.core width depth).rep root line s =
        .error (.fault (.overlong digits)) s') ∧ AddsData s s' := by
  unfold firstForm? at form
  split at form
  · cases form
  · next names digits reads =>
    refine ⟨digits, s.internAll root.table names.reverse, fun width depth => ?_,
      s.addsData_internAll root.table names.reverse⟩
    exact Engine.rep_eq_error_iff.2 (.inl (read_of_overlong reads s))

namespace Pristine

theorem of_newSession (fresh : Env.newSession Store.empty = .ok root s) : Pristine root s := by
  refine ⟨.of_newSession fresh, ?_⟩
  cases newSession_eq.symm.trans fresh
  rfl

theorem addsData {outcome : Except Fault String} (h : Pristine root s) (adds : AddsData s s')
    (settles : Settles root line s outcome s') : Pristine root s' where
  ready := .of_frame (settles.reached h.ready.reached) (h.ready.frame.of_extends adds.toExtends)
  noClosures := adds.sameClosures.trans h.noClosures

/-- A first-order form that has been read is evaluated within its own nesting. -/
theorem answers (h : Pristine root s) (firstOrder : FirstOrder line) {d : Datum}
    (form : firstForm? line = some d) :
    ∃ out s', (∀ width depth, d.pairs < width → d.nesting < depth →
        (Engine.core width depth).rep root line s = .ok out s') ∧ AddsData s s' := by
  obtain ⟨noLambda, noDefun⟩ := firstOrder d form
  unfold firstForm? at form
  split at form
  · next names d' rest short reads =>
    cases form
    have holds := h.ready.reached.holds
    obtain ⟨v, s₁, reading, represents, shows⟩ := h.ready.represents.read_of_form reads
    have adds := (read_spec h.ready.represents.hasTable reading).1
    obtain ⟨w, -, s', ends, adds', -⟩ := eval_endsPlainly (fun _ _ => noClosure_of_core)
      represents (holds s₁) shows (firstOrder_toPure noLambda noDefun)
      (Nat.lt_succ_self _) (Nat.le_refl _)
    rw [Sexp.pairs_map, Sexp.nesting_map] at ends
    rw [← (holds s₁).own] at reading
    refine ⟨s'.print w, s', fun width depth hw hd => ?_, adds.trans adds'⟩
    exact Engine.rep_eq_ok_iff.2 ⟨v, rest, s₁, w, reading, ends width depth hw hd, rfl⟩
  · cases form

theorem settles (h : Pristine root s) (firstOrder : FirstOrder line) :
    ∃ outcome s', Settles root line s outcome s' ∧ AddsData s s' := by
  cases form : firstForm? line with
  | some d =>
    obtain ⟨out, s', answer, adds⟩ := h.answers firstOrder form
    refine ⟨.ok out, s', ⟨d.pairs + d.nesting + 1, fun width depth hw hd => ?_⟩, adds⟩
    exact Run.attempt_eq_ok_iff.2 (.inl ⟨out, rfl, answer width depth (by omega) (by omega)⟩)
  | none =>
    obtain ⟨digits, s', refusal, adds⟩ := rep_of_noForm form root s
    refine ⟨.error (.overlong digits), s', ⟨0, fun width depth _ _ => ?_⟩, adds⟩
    exact Run.attempt_eq_ok_iff.2 (.inr ⟨_, rfl, refusal width depth⟩)

theorem after_line {outcome : Except Fault String} (h : Pristine root s)
    (firstOrder : FirstOrder line) (settles : Settles root line s outcome s') :
    Pristine root s' := by
  obtain ⟨outcome', t, settles', adds⟩ := h.settles firstOrder
  obtain ⟨-, rfl⟩ := settles'.unique settles
  exact h.addsData adds settles

theorem after_lines {c : Conversation} (h : Pristine root s)
    (firstOrder : ∀ line ∈ lines.take (c.replies.length + 1), FirstOrder line)
    (run : answerLines ((Engine.core width depth).reply root) lines s = .ok c s') :
    Pristine root s' := by
  induction lines generalizing s c with
  | nil =>
    obtain ⟨-, rfl⟩ := answerLines_nil_eq_ok_iff.1 run
    exact h
  | cons line lines ih =>
    obtain ⟨first, others⟩ := List.forall_mem_cons.1 firstOrder
    obtain ⟨outcome, t, settles, rest⟩ := h.ready.answers_cons run
    have after := h.after_line first settles
    rcases rest with ⟨r, c', -, runOthers, rfl⟩ | ⟨f, -, rfl, -⟩
    · exact ih after others runOthers
    · exact after

theorem after_conversation {c : Conversation} (h : Pristine root s)
    (firstOrder : ∀ line ∈ lines.take (c.replies.length + 1), FirstOrder line)
    (run : (Engine.core width depth).converse root lines s = .ok c s') : Pristine root s' := by
  obtain ⟨before, after, c', rfl, answers, same⟩ := Engine.answers_of_converse run
  rw [same, List.take_append] at firstOrder
  exact h.after_lines (fun line hline => firstOrder line (List.mem_append_left _ hline)) answers

end Pristine

theorem FirstOrderSession.pristine (h : FirstOrderSession root s) : Pristine root s := by
  induction h with
  | fresh fresh => exact .of_newSession fresh
  | rep _ firstOrder answer ih => exact ih.after_line firstOrder (ih.ready.reached.settles answer)
  | eval _ firstOrder value ih =>
    obtain ⟨outcome, answer⟩ := Engine.attempt_rep_of_evalText value
    exact ih.after_line firstOrder (ih.ready.reached.settles answer)
  | converse _ firstOrder run ih => exact ih.after_conversation firstOrder run

/-- A session of first-order lines has no closures, and as stores drop none, none have been made on
the way. Its global frame lists the bindings of the core procedures and nothing else. The next such
line is refused as it is read or answered with requests that nest no deeper than its form does. -/
theorem first_order_sessions (h : FirstOrderSession root s) :
    s.closures = #[] ∧ (∀ es, root.Lists s es ↔ es = coreEntries) ∧
      ∀ line, FirstOrder line →
        (∀ d, firstForm? line = some d → ∃ out s', ∀ width depth, d.pairs < width →
          d.nesting < depth → (Engine.core width depth).rep root line s = .ok out s') ∧
        (firstForm? line = none → ∃ digits s', ∀ width depth,
          (Engine.core width depth).rep root line s = .error (.fault (.overlong digits)) s') := by
  have pristine := h.pristine
  refine ⟨pristine.noClosures, fun es => pristine.ready.lists.iff, fun line firstOrder => ?_⟩
  refine ⟨fun d form => ?_, fun form => ?_⟩
  · obtain ⟨out, s', answer, -⟩ := pristine.answers firstOrder form
    exact ⟨out, s', answer⟩
  · obtain ⟨digits, s', refusal, -⟩ := rep_of_noForm form root s
    exact ⟨digits, s', refusal⟩

/-- A line in a fresh session, and the same line once more. -/
theorem first_order_sessions_repeated_line : ∃ root s₀ s out s' out',
    Env.newSession Store.empty = .ok root s₀ ∧
    (Engine.core 6 3).rep root "(cons t 'a)" s₀ = .ok out s ∧ FirstOrderSession root s ∧
    s.closures = #[] ∧ (∀ es, root.Lists s es ↔ es = coreEntries) ∧
    ∀ width depth, 5 < width → 2 < depth →
      (Engine.core width depth).rep root "(cons t 'a)" s = .ok out' s' := by
  have form : firstForm? "(cons t 'a)" = some (.ofList .nil [.atom (.sym "cons"), .atom (.sym "t"),
      .ofList .nil [.atom (.sym "quote"), .atom (.sym "a")]]) := by decide +kernel
  have firstOrder : FirstOrder "(cons t 'a)" := by
    intro d hd
    cases form.symm.trans hd
    decide
  have fresh : FirstOrderSession _ _ := .fresh newSession_eq
  obtain ⟨out, s, answer⟩ := ((first_order_sessions fresh).2.2 _ firstOrder).1 _ form
  have answer := answer 6 3 (by decide) (by decide)
  have session := fresh.rep firstOrder (Run.attempt_eq_ok_iff.2 (.inl ⟨out, rfl, answer⟩))
  obtain ⟨noClosures, bindings, lines⟩ := first_order_sessions session
  obtain ⟨out', s', again⟩ := (lines _ firstOrder).1 _ form
  exact ⟨_, _, s, out, s', out', newSession_eq, answer, session, noClosures, bindings, again⟩

end session

end PocketLisp
