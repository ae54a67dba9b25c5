import PocketLisp.Proofs.SessionRefinement

/-!
# What becomes of lines

A line is answered, or it is refused because its first form cannot be read, and the next line goes
on with what is defined then. The reference semantics tells what becomes of each line of a session,
and a fresh session gives just that.
-/
namespace PocketLisp

/-- Lines and what has become of them: the answer, or the fault that ended the line. -/
abbrev Log := List (String × Except Fault String)

/-- `Responds g line outcome g'`: under the globals `g` the line comes to that outcome, and then the
globals are `g'`. -/
inductive Responds (g : Globals) (line : String) : Except Fault String → Globals → Prop where
  | answer {names : List String} {d : Datum} {rest : List Char}
      {short : rest.length ≤ line.toList.length} {x : PureValue} {g' : Globals}
      (reading : readForm line.toList [] line.toList (Nat.le_succ _) = .form names d rest short)
      (value : Evaluates (.eval (d.map Atom.toPure) []) g x g') :
      Responds g line (.ok (x.written pureSpelling)) g'
  | refusal {names : List String} {digits : Nat}
      (reading : readForm line.toList [] line.toList (Nat.le_succ _) = .overlong names digits) :
      Responds g line (.error (.overlong digits)) g

theorem Responds.unique {g g₁ g₂ : Globals} {line : String} {outcome outcome' : Except Fault String}
    (h : Responds g line outcome g₁) (h' : Responds g line outcome' g₂) :
    outcome = outcome' ∧ g₁ = g₂ := by
  cases h with
  | answer reading value =>
    cases h' with
    | answer reading' value' =>
      cases reading.symm.trans reading'
      obtain ⟨rfl, rfl⟩ := value.unique value'
      exact ⟨rfl, rfl⟩
    | refusal reading' => cases reading.symm.trans reading'
  | refusal reading =>
    cases h' with
    | answer reading' _ => cases reading.symm.trans reading'
    | refusal reading' =>
      cases reading.symm.trans reading'
      exact ⟨rfl, rfl⟩

/-- What becomes of the lines of a fresh session, and the globals then. -/
inductive Converses : Log → Globals → Prop where
  | start : Converses [] (.ofBindings coreBindings)
  | line {log : Log} {g g' : Globals} {line : String} {outcome : Except Fault String}
      (earlier : Converses log g) (last : Responds g line outcome g') :
      Converses (log ++ [(line, outcome)]) g'

theorem Converses.unique {log log' : Log} {g g' : Globals} (h : Converses log g)
    (h' : Converses log' g') (lines : log.map Prod.fst = log'.map Prod.fst) :
    log = log' ∧ g = g' := by
  induction h generalizing log' g' with
  | start =>
    cases h' with
    | start => exact ⟨rfl, rfl⟩
    | line _ _ => simp at lines
  | line _ last ih =>
    cases h' with
    | start => simp at lines
    | line earlier' last' =>
      rw [List.map_append, List.map_append] at lines
      obtain ⟨earlier, same⟩ := List.append_inj' lines rfl
      cases same
      obtain ⟨rfl, rfl⟩ := ih earlier' earlier
      obtain ⟨rfl, rfl⟩ := last.unique last'
      exact ⟨rfl, rfl⟩

def Engine.outcomes (e : Engine) (lines : List String) : Run (List (Except Fault String)) := do
  let env ← Env.newSession
  lines.mapM fun line => (e.rep env line).attempt

section session

variable {table global : Nat} {env : Env} (henv : ∀ s, Holds table global s env [])
include henv

/-- All large enough bounds give what the reference semantics tells of a line. -/
theorem Responds.attempted {s : Store} {g g' : Globals} {line : String}
    {outcome : Except Fault String} (h : Responds g line outcome g')
    (hg : Represents table global s g) :
    ∃ n s', (∀ width depth, n ≤ width → n ≤ depth →
        ((Engine.core width depth).rep env line).attempt s = .ok outcome s') ∧
      Represents table global s' g' := by
  cases h with
  | answer form value =>
    obtain ⟨v, s₁, reading, hg, shows⟩ := hg.read_of_form form
    obtain ⟨n, s', answer, hg⟩ := hg.answers_line henv reading shows value
    exact ⟨n, s', fun width depth hw hd =>
      Run.attempt_eq_ok_iff.2 (.inl ⟨_, rfl, answer width depth hw hd⟩), hg⟩
  | @refusal names digits form =>
    have reading := @read_of_overlong env.table _ _ _ form s
    refine ⟨0, _, fun width depth _ _ => Run.attempt_eq_ok_iff.2 (.inr ⟨_, rfl, ?_⟩),
      hg.addsData (s.addsData_internAll env.table names.reverse)⟩
    simp only [Engine.rep, Engine.transcribe]
    exact Run.bind_apply_of_error (Run.bind_apply_of_error reading _) _

theorem Converses.attempted {s : Store} {log : Log} {g : Globals} (h : Converses log g)
    (hg : Represents table global s (.ofBindings coreBindings)) :
    ∃ n s', (∀ width depth, n ≤ width → n ≤ depth →
        (log.map Prod.fst).mapM (fun line => ((Engine.core width depth).rep env line).attempt) s =
          .ok (log.map Prod.snd) s') ∧
      Represents table global s' g := by
  induction h with
  | start => exact ⟨0, s, fun _ _ _ _ => Run.mapM_nil_eq_ok_iff.2 ⟨rfl, rfl⟩, hg⟩
  | line _ last ih =>
    obtain ⟨n, s₁, earlier, hg⟩ := ih
    obtain ⟨m, s', attempt, hg⟩ := last.attempted henv hg
    refine ⟨n + m, s', fun width depth hw hd => ?_, hg⟩
    rw [List.map_append, List.map_append]
    exact Run.mapM_concat (earlier width depth (by omega) (by omega))
      (attempt width depth (by omega) (by omega))

end session

/-- A fresh session gives what the reference semantics tells of its lines. -/
theorem Converses.outcomes {log : Log} {g : Globals} (h : Converses log g) :
    ∃ n s, ∀ width depth, n ≤ width → n ≤ depth →
      (Engine.core width depth).outcomes (log.map Prod.fst) Store.empty =
        .ok (log.map Prod.snd) s := by
  obtain ⟨root, s₀, fresh, henv, hg⟩ := exists_newSession
  obtain ⟨n, s, attempts, -⟩ := h.attempted henv hg
  refine ⟨n, s, fun width depth hw hd => ?_⟩
  rw [Engine.outcomes, Run.bind_apply_of_ok fresh]
  exact attempts width depth hw hd

end PocketLisp
