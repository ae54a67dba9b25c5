import PocketLisp.Proofs.LineFaults
import PocketLisp.Proofs.SessionRefinement

/-!
# The values of lines

Lines have the values that the reference semantics gives to their first forms, one line after the
other. Whatever a session reports of its lines, their values or what these are written as, it
reports of just those.
-/
namespace PocketLisp

def firstForm? (text : String) : Option Datum :=
  match readForm text.toList [] text.toList (Nat.le_succ _) with
  | .form _ d _ _ => some d
  | .overlong _ _ => none

theorem reads_of_firstForm? {text : String} {d : Datum} (h : firstForm? text = some d)
    (errorFree : ErrorFree d) : ∃ rest, Reads Converts text.toList d rest := by
  have follows := readForm_follows [] (Nat.le_succ text.toList.length)
  unfold firstForm? at h
  split at h
  · next names d' rest short form =>
    cases h
    rw [form] at follows
    rcases follows with ⟨reads, -⟩ | ⟨wrapped, -⟩
    · exact ⟨rest, reads⟩
    · exact absurd errorFree wrapped.not_errorFree
  · cases h

/-- Under the globals `g` the first form of the line has the value `x`, and then the globals are
`g'`. -/
inductive LineEvaluates (g : Globals) (line : String) (x : PureValue) (g' : Globals) : Prop where
  | intro {names : List String} {d : Datum} {rest : List Char}
      {short : rest.length ≤ line.toList.length}
      (reading : readForm line.toList [] line.toList (Nat.le_succ _) = .form names d rest short)
      (value : Evaluates (.eval (d.map Atom.toPure) []) g x g')

/-- A line has the values of the form that it holds as the grammar has it. -/
theorem Reads.lineEvaluates_iff {line : String} {d : Datum} {rest : List Char}
    (h : Reads Converts line.toList d rest) {g g' : Globals} {x : PureValue} :
    LineEvaluates g line x g' ↔ Evaluates (.eval (d.map Atom.toPure) []) g x g' := by
  obtain ⟨names, short, form⟩ := h.isClassified.run line.toList [] line.toList rfl (Nat.le_succ _)
  constructor
  · rintro ⟨reading, value⟩
    cases form.symm.trans reading
    exact value
  · intro value
    exact ⟨form, value⟩

theorem LineEvaluates.unique {g g₁ g₂ : Globals} {line : String} {x y : PureValue}
    (h : LineEvaluates g line x g₁) (h' : LineEvaluates g line y g₂) : x = y ∧ g₁ = g₂ := by
  obtain ⟨reading, value⟩ := h
  obtain ⟨reading', value'⟩ := h'
  cases reading.symm.trans reading'
  exact value.unique value'

inductive LinesEvaluate : Globals → List String → List PureValue → Globals → Prop where
  | done {g : Globals} : LinesEvaluate g [] [] g
  | line {g g₁ g₂ : Globals} {line : String} {lines : List String} {x : PureValue}
      {xs : List PureValue} (value : LineEvaluates g line x g₁)
      (others : LinesEvaluate g₁ lines xs g₂) : LinesEvaluate g (line :: lines) (x :: xs) g₂

theorem LinesEvaluate.unique {g g₁ g₂ : Globals} {lines : List String} {xs ys : List PureValue}
    (h : LinesEvaluate g lines xs g₁) (h' : LinesEvaluate g lines ys g₂) : xs = ys ∧ g₁ = g₂ := by
  induction h generalizing ys g₂ with
  | done =>
    cases h'
    exact ⟨rfl, rfl⟩
  | line value _ ih =>
    cases h' with
    | line value' others' =>
      obtain ⟨rfl, rfl⟩ := value.unique value'
      obtain ⟨rfl, rfl⟩ := ih others'
      exact ⟨rfl, rfl⟩

theorem LinesEvaluate.length_eq {g g' : Globals} {lines : List String} {xs : List PureValue}
    (h : LinesEvaluate g lines xs g') : xs.length = lines.length := by
  induction h with
  | done => rfl
  | line _ _ ih => simp [ih]

theorem LinesEvaluate.append_iff {g g' : Globals} {lines more : List String} {xs : List PureValue} :
    LinesEvaluate g (lines ++ more) xs g' ↔ ∃ ys zs g₁, LinesEvaluate g lines ys g₁ ∧
      LinesEvaluate g₁ more zs g' ∧ xs = ys ++ zs := by
  constructor
  · intro h
    induction lines generalizing g xs with
    | nil => exact ⟨[], xs, g, .done, h, rfl⟩
    | cons line lines ih =>
      cases h with
      | line value others =>
        obtain ⟨ys, zs, g₁, first, last, rfl⟩ := ih others
        exact ⟨_, zs, g₁, .line value first, last, rfl⟩
  · rintro ⟨ys, zs, g₁, first, last, rfl⟩
    induction first with
    | done => exact last
    | line value _ ih => exact .line value (ih last)

/-- A computation for each line that reports something of its value. What it reports, and when, is
up to the bounds only in that these must be large enough. -/
structure Reports {α : Type} (table global : Nat) (report : Nat → Nat → String → Run α)
    (tells : Store → α → PureValue → Prop) : Prop where
  sound : ∀ {width depth : Nat} {line : String} {a : α} {s s' : Store} {g : Globals},
    Represents table global s g → report width depth line s = .ok a s' →
    ∃ x g', LineEvaluates g line x g' ∧ tells s' a x ∧ GrowsAt global s s' ∧
      Represents table global s' g'
  complete : ∀ {line : String} {x : PureValue} {s : Store} {g g' : Globals},
    Represents table global s g → LineEvaluates g line x g' →
    ∃ n a s', (∀ width depth, n ≤ width → n ≤ depth → report width depth line s = .ok a s') ∧
      tells s' a x ∧ GrowsAt global s s' ∧ Represents table global s' g'
  grow : ∀ {a : α} {x : PureValue} {s s' : Store},
    GrowsAt global s s' → tells s a x → tells s' a x

namespace Reports
variable {α : Type} {table global : Nat} {report : Nat → Nat → String → Run α}
  {tells : Store → α → PureValue → Prop} (h : Reports table global report tells)
include h

theorem lines_sound {width depth : Nat} {lines : List String} {as : List α} {s s' : Store}
    {g : Globals} (hg : Represents table global s g)
    (run : lines.mapM (report width depth) s = .ok as s') :
    ∃ xs g', LinesEvaluate g lines xs g' ∧ List.Forall₂ (tells s') as xs ∧ GrowsAt global s s' ∧
      Represents table global s' g' := by
  induction lines generalizing s g as with
  | nil =>
    obtain ⟨rfl, rfl⟩ := Run.mapM_nil_eq_ok_iff.1 run
    exact ⟨[], g, .done, .nil, .refl global _, hg⟩
  | cons line lines ih =>
    obtain ⟨a, s₁, as, first, others, rfl⟩ := Run.mapM_cons_eq_ok_iff.1 run
    obtain ⟨x, g₁, value, told, grow, hg₁⟩ := h.sound hg first
    obtain ⟨xs, g', values, tolds, grow', hg'⟩ := ih hg₁ others
    exact ⟨_, g', .line value values, .cons (h.grow grow' told) tolds,
      grow.trans grow' hg.global_lt, hg'⟩

/-- The values of lines are reported under all large enough bounds. -/
theorem lines_complete {lines : List String} {xs : List PureValue} {s : Store} {g g' : Globals}
    (hg : Represents table global s g) (values : LinesEvaluate g lines xs g') :
    ∃ n as s', (∀ width depth, n ≤ width → n ≤ depth →
        lines.mapM (report width depth) s = .ok as s') ∧
      List.Forall₂ (tells s') as xs ∧ GrowsAt global s s' ∧ Represents table global s' g' := by
  induction values generalizing s with
  | done => exact ⟨0, [], s, fun _ _ _ _ => Run.mapM_nil_eq_ok_iff.2 ⟨rfl, rfl⟩, .nil,
      .refl global _, hg⟩
  | line value _ ih =>
    obtain ⟨n, a, s₁, first, told, grow, hg₁⟩ := h.complete hg value
    obtain ⟨m, as, s', others, tolds, grow', hg'⟩ := ih hg₁
    refine ⟨n + m, a :: as, s', fun width depth hw hd => ?_, .cons (h.grow grow' told) tolds,
      grow.trans grow' hg.global_lt, hg'⟩
    exact Run.mapM_cons_eq_ok_iff.2 ⟨a, s₁, as, first width depth (by omega) (by omega),
      others width depth (by omega) (by omega), rfl⟩

end Reports

theorem Engine.evalText_eq_ok_iff {e : Engine} {env : Env} {line : String} {v : Value}
    {s s' : Store} : e.evalText env line s = .ok v s' ↔ ∃ form rest s₁,
      read env.table line.toList s = .ok (form, rest) s₁ ∧ e.eval form env s₁ = .ok v s' := by
  simp only [Engine.evalText, readText, Run.bind_eq_ok_iff, Run.pure_apply]
  constructor
  · rintro ⟨_, _, ⟨⟨form, rest⟩, s₁, reading, same⟩, evaluation⟩
    cases same
    exact ⟨form, rest, _, reading, evaluation⟩
  · rintro ⟨form, rest, s₁, reading, evaluation⟩
    exact ⟨form, s₁, ⟨(form, rest), s₁, reading, rfl⟩, evaluation⟩

theorem Engine.rep_eq_ok_iff_evalText {e : Engine} {env : Env} {line out : String} {s s' : Store} :
    e.rep env line s = .ok out s' ↔ ∃ v, e.evalText env line s = .ok v s' ∧ out = s'.print v := by
  simp only [Engine.rep_eq_ok_iff, Engine.evalText_eq_ok_iff]
  constructor
  · rintro ⟨form, rest, s₁, v, reading, evaluation, rfl⟩
    exact ⟨v, ⟨form, rest, s₁, reading, evaluation⟩, rfl⟩
  · rintro ⟨v, ⟨form, rest, s₁, reading, evaluation⟩, rfl⟩
    exact ⟨form, rest, s₁, v, reading, evaluation, rfl⟩

section session

variable {table global : Nat} {env : Env} (henv : ∀ s, Holds table global s env [])
include henv

/-- The values in the store show the values of the lines. -/
theorem reports_evalText : Reports table global
    (fun width depth => (Engine.core width depth).evalText env)
    (fun s v x => Shows table global s v (.value x)) where
  sound hg run := by
    obtain ⟨form, rest, s₁, reading, evaluation⟩ := Engine.evalText_eq_ok_iff.1 run
    rw [(henv s₁).own] at reading
    obtain ⟨names, d, short, hform⟩ := read_eq_ok reading
    obtain ⟨v, s₂, reading', hg₁, shows⟩ := hg.read_of_form hform
    cases reading'.symm.trans reading
    have adds := (read_spec hg.hasTable reading).1
    have answers := answers_of_run evaluation
    have grow := hg₁.growsAt (.eval shows (henv s₁)) answers
    obtain ⟨x, g', value, result, hg'⟩ := answers.evaluates (.eval shows (henv s₁)) hg₁
    exact ⟨x, g', ⟨hform, value⟩, result.shows, (adds.growsAt global).trans grow hg.global_lt, hg'⟩
  complete hg value := by
    obtain ⟨form, value⟩ := value
    obtain ⟨v, s₁, reading, hg₁, shows⟩ := hg.read_of_form form
    have adds := (read_spec hg.hasTable reading).1
    obtain ⟨w, s', answers, result, hg'⟩ := value.answers (.eval shows (henv s₁)) hg₁
    have grow := hg₁.growsAt (.eval shows (henv s₁)) answers
    obtain ⟨n, evaluation⟩ := answers.runWithin
    refine ⟨n, w, s', fun width depth hw hd => ?_, result.shows,
      (adds.growsAt global).trans grow hg.global_lt, hg'⟩
    rw [← (henv s₁).own] at reading
    exact Engine.evalText_eq_ok_iff.2
      ⟨v, _, s₁, reading, evaluation width depth n hw hd (Nat.le_refl n)⟩
  grow hs shows := shows.grow hs

/-- The answers are what the values of the lines are written as. -/
theorem reports_rep : Reports table global
    (fun width depth => (Engine.core width depth).rep env)
    (fun _ out x => out = x.written pureSpelling) where
  sound hg run := by
    obtain ⟨v, evaluation, rfl⟩ := Engine.rep_eq_ok_iff_evalText.1 run
    obtain ⟨x, g', value, shows, grow, hg'⟩ := (reports_evalText henv).sound hg evaluation
    exact ⟨x, g', value, shows.print_eq, grow, hg'⟩
  complete hg value := by
    obtain ⟨n, v, s', evaluation, shows, grow, hg'⟩ := (reports_evalText henv).complete hg value
    refine ⟨n, _, s', fun width depth hw hd => ?_, shows.print_eq, grow, hg'⟩
    exact Engine.rep_eq_ok_iff_evalText.2 ⟨v, evaluation width depth hw hd, rfl⟩
  grow _ told := told

end session

def Engine.values (e : Engine) (lines : List String) : Run (List Value) := do
  let env ← Env.newSession
  lines.mapM (e.evalText env)

section fresh

variable {α : Type} {report : Env → Nat → Nat → String → Run α}
  {tells : Store → α → PureValue → Prop}
  (reports : ∀ env, (∀ s, Holds 0 0 s env []) → Reports 0 0 (report env) tells)
include reports

/-- What a fresh session reports of its lines are their values after the core procedures are
defined. -/
theorem newSession_sound {lines : List String} {width depth : Nat} {as : List α} {s : Store}
    (run : (Env.newSession >>= fun env => lines.mapM (report env width depth)) Store.empty =
      .ok as s) :
    ∃ xs g, LinesEvaluate (.ofBindings coreBindings) lines xs g ∧ List.Forall₂ (tells s) as xs := by
  obtain ⟨root, s₀, fresh, henv, hg⟩ := exists_newSession
  rw [Run.bind_apply_of_ok fresh] at run
  obtain ⟨xs, g, values, tolds, -⟩ := (reports root henv).lines_sound hg run
  exact ⟨xs, g, values, tolds⟩

/-- A fresh session gets through its lines under all large enough bounds exactly if they have
values. -/
theorem newSession_iff {lines : List String} :
    (∃ n as s, ∀ width depth, n ≤ width → n ≤ depth →
      (Env.newSession >>= fun env => lines.mapM (report env width depth)) Store.empty =
        .ok as s) ↔ ∃ xs g, LinesEvaluate (.ofBindings coreBindings) lines xs g := by
  constructor
  · rintro ⟨n, as, s, run⟩
    obtain ⟨xs, g, values, -⟩ :=
      newSession_sound reports (run n n (Nat.le_refl n) (Nat.le_refl n))
    exact ⟨xs, g, values⟩
  · rintro ⟨xs, g, values⟩
    obtain ⟨root, s₀, fresh, henv, hg⟩ := exists_newSession
    obtain ⟨n, as, s, run, -⟩ := (reports root henv).lines_complete hg values
    refine ⟨n, as, s, fun width depth hw hd => ?_⟩
    rw [Run.bind_apply_of_ok fresh]
    exact run width depth hw hd

end fresh

end PocketLisp
