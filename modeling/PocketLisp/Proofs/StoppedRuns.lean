import PocketLisp.Proofs.LexicalScope

/-!
# Runs that are stopped

A run that has no value is stopped somewhere: the store that it leaves is that of one of the moments
of the evaluation. So what holds at all moments also holds after a line that has been given up. The
one thing that could happen between two moments is a definition without a frame to define in, which
an invariant has to exclude.
-/
namespace PocketLisp

def Moment.Passes (m : Moment) (s : Store) : Prop :=
  ∃ ds m', Course Step m ds m' ∧ m'.store = s

/-- Steps keep the invariant, and it gives each call a global frame. -/
structure Grounded (I : Moment → Prop) : Prop where
  step : ∀ {m m' : Moment} {ds : List Defined}, I m → Step m ds m' → I m'
  framed : ∀ {m : Moment}, I m → ∀ env ∈ m.stage.envs, ∃ frame,
    m.store.cell? env.globalFrames = some frame

section moments

variable {m m₁ : Moment} {ds : List Defined} {s : Store}

theorem Moment.Passes.here (m : Moment) : m.Passes m.store := ⟨[], m, .refl, rfl⟩

theorem Moment.Passes.after (h : m₁.Passes s) (course : Course Step m ds m₁) : m.Passes s := by
  obtain ⟨ds', m', later, hs⟩ := h
  exact ⟨_, m', course.trans later, hs⟩

theorem Moment.Passes.next (h : m₁.Passes s) (step : Step m ds m₁) : m.Passes s :=
  h.after (.single step)

theorem Grounded.course {I : Moment → Prop} (grounded : Grounded I) (h : I m)
    (course : Course Step m ds m₁) : I m₁ := by
  induction course with
  | refl => exact h
  | next _ last ih => exact grounded.step ih last

theorem asClosure_eq_error {v : Value} {stop : Stop} {s s' : Store}
    (h : asClosure v s = .error stop s') : s' = s := by
  simp only [asClosure, Run.look_bind_apply] at h
  cases found : s.closure? v with
  | some c =>
    rw [found] at h
    cases h
  | none =>
    rw [found] at h
    cases h
    rfl

end moments

section requests

variable {I : Moment → Prop} (grounded : Grounded I) {width depth : Nat} {stop : Stop}
  {env : Env} {s s' : Store} {w : List Waiting}
  (stops : ∀ {form : Value} {env : Env} {s s' : Store} {w : List Waiting},
    I ⟨.ask (.eval form env) w, s⟩ →
      run noHost width depth (.eval form env) s = .error stop s' →
        Moment.Passes ⟨.ask (.eval form env) w, s⟩ s')
include grounded stops

theorem evalList_stops {fuel : Nat} {done : List Value} {forms : Value}
    (h : I ⟨.ask (.args done forms env) w, s⟩)
    (stopped : evalList (fun form => run noHost width depth (.eval form env)) fuel done forms s =
      .error stop s') : Moment.Passes ⟨.ask (.args done forms env) w, s⟩ s' := by
  induction fuel generalizing done forms s with
  | zero =>
    cases stopped
    exact .here _
  | succ fuel ih =>
    simp only [evalList, Run.look_bind_apply] at stopped
    cases hcell : s.cell? forms with
    | none =>
      rw [hcell] at stopped
      cases stopped
    | some c =>
      obtain ⟨a, rfl, cell⟩ := Store.cell?_eq_some hcell
      simp only [hcell, Run.bind_eq_error_iff] at stopped
      have first : Step ⟨.ask (.args done (.cons a) env) w, s⟩ [] _ := .argument cell
      rcases stopped with form | ⟨v, t, value, others⟩
      · exact (stops (grounded.step h first) form).next first
      · split at others
        · cases others
        · next noError =>
          obtain ⟨ds, course⟩ := (answers_of_run value).course
          have go :=
            ((Course.single first).trans (course _)).next (.argsNext (by simpa using noError))
          exact (ih (grounded.course h go) others).after go

theorem evalBody_stops {fuel : Nat} {last forms : Value}
    (h : I ⟨.ask (.body last forms env) w, s⟩)
    (stopped : evalBody (fun form => run noHost width depth (.eval form env)) fuel last forms s =
      .error stop s') : Moment.Passes ⟨.ask (.body last forms env) w, s⟩ s' := by
  induction fuel generalizing last forms s with
  | zero =>
    cases stopped
    exact .here _
  | succ fuel ih =>
    simp only [evalBody, Run.look_bind_apply] at stopped
    cases hcell : s.cell? forms with
    | none =>
      rw [hcell] at stopped
      cases stopped
    | some c =>
      obtain ⟨a, rfl, cell⟩ := Store.cell?_eq_some hcell
      simp only [hcell, Run.bind_eq_error_iff] at stopped
      have first : Step ⟨.ask (.body last (.cons a) env) w, s⟩ [] _ := .form cell
      rcases stopped with form | ⟨v, t, value, others⟩
      · exact (stops (grounded.step h first) form).next first
      · obtain ⟨ds, course⟩ := (answers_of_run value).course
        have go := ((Course.single first).trans (course _)).next .bodyNext
        rcases others with rest | ⟨_, _, rest, others⟩
        · cases rest
        · cases rest
          exact (ih (grounded.course h go) others).after go

theorem applyStep_stops {f args : Value} (h : I ⟨.ask (.apply f args) w, s⟩)
    (stopped : applyStep noHost width (run noHost width depth) f args s = .error stop s') :
    Moment.Passes ⟨.ask (.apply f args) w, s⟩ s' := by
  unfold applyStep at stopped
  split at stopped
  · cases stopped
  split at stopped
  · cases stopped
  next noError noArgsError =>
  rw [Bool.not_eq_true] at noArgsError
  split at stopped
  · rw [callStep_apply] at stopped
    cases stopped
  -- A closure that is not there stops the run at the application itself.
  · rcases Run.bind_eq_error_iff.1 stopped with missing | ⟨c, t, found, body⟩
    · rw [asClosure_eq_error missing]
      exact .here _
    · obtain ⟨closure, rfl⟩ := asClosure_eq_ok_iff.1 found
      rw [Run.bind_apply_of_ok (c.env.extend_apply c.params args _)] at body
      have call := Step.applyClosure (w := w) noArgsError closure rfl
      exact (evalBody_stops grounded stops (grounded.step h call) body).next call
  · cases stopped

theorem evalStep_stops {form : Value} (h : I ⟨.ask (.eval form env) w, s⟩)
    (stopped : evalStep noHost width (run noHost width depth) form env s = .error stop s') :
    Moment.Passes ⟨.ask (.eval form env) w, s⟩ s' := by
  cases hcell : s.cell? form with
  | none =>
    by_cases symbol : ∃ sym, form = .sym sym
    · obtain ⟨sym, rfl⟩ := symbol
      rw [evalStep_symbol] at stopped
      split at stopped <;> cases stopped
    · rw [evalStep_self width _ (fun sym e => symbol ⟨sym, e⟩) hcell] at stopped
      cases stopped
  | some c =>
    obtain ⟨a, rfl, cell⟩ := Store.cell?_eq_some hcell
    obtain ⟨op, args⟩ := c
    rw [evalStep_cell width _ cell, evalCell_apply] at stopped
    cases head : s.keyword env.table op with | mk k s₁ =>
    rw [head] at stopped
    cases k with
    | none =>
      simp only [evalApplication, Run.bind_eq_error_iff] at stopped
      have first : Step ⟨.ask (.eval (.cons a) env) w, s⟩ [] _ := .function cell head
      rcases stopped with function | ⟨f, s₂, function, stopped⟩
      · exact (stops (grounded.step h first) function).next first
      obtain ⟨ds, course⟩ := (answers_of_run function).course
      have go := ((Course.single first).trans (course _)).next .arguments
      rcases stopped with arguments | ⟨values, s₃, arguments, application⟩
      · exact (evalList_stops grounded stops (grounded.course h go) arguments).after go
      obtain ⟨ds', course'⟩ := (evalList_sound (fun h => answers_of_run h) arguments).course
      have go' := (go.trans (course' _)).next .application
      exact (applyStep_stops grounded stops (grounded.course h go') application).after go'
    | some k =>
      cases k with
      | quote => cases stopped
      | conditional =>
        simp only [evalIf, Run.look_bind_apply, Run.bind_eq_error_iff] at stopped
        have first : Step ⟨.ask (.eval (.cons a) env) w, s⟩ [] _ := .test cell head
        rcases stopped with test | ⟨v, s₂, test, stopped⟩
        · exact (stops (grounded.step h first) test).next first
        split at stopped
        · cases stopped
        · next noError =>
          obtain ⟨ds, course⟩ := (answers_of_run test).course
          have go :=
            ((Course.single first).trans (course _)).next (.branch (by simpa using noError))
          exact (stops (grounded.course h go) stopped).after go
      | lambda => cases stopped
      | defun =>
        -- A definition is no place to stop at, for there is a frame to define in.
        obtain ⟨frame, global⟩ := grounded.framed h env List.mem_cons_self
        obtain ⟨g, same, global⟩ := Store.cell?_eq_some global
        have kept : s₁.cell? env.globalFrames = some frame := by
          rw [same]
          exact (addsData_of_keyword head).cells g _ global
        cases stopped.symm.trans (evalDefun_apply_of_some rfl kept)

end requests

/-- A run that is stopped leaves the store of a moment of the evaluation. -/
theorem Grounded.run_stops {I : Moment → Prop} (grounded : Grounded I) {width depth : Nat}
    {stop : Stop} {form : Value} {env : Env} {s s' : Store} {w : List Waiting}
    (h : I ⟨.ask (.eval form env) w, s⟩)
    (stopped : run noHost width depth (.eval form env) s = .error stop s') :
    Moment.Passes ⟨.ask (.eval form env) w, s⟩ s' := by
  induction depth generalizing form env s s' w with
  | zero =>
    cases stopped
    exact .here _
  | succ depth ih => exact evalStep_stops grounded ih h stopped

/-- Whether it has a value or is stopped, a run leaves the store of a moment of the evaluation. -/
theorem Grounded.passes {I : Moment → Prop} (grounded : Grounded I) {width depth : Nat}
    {form : Value} {env : Env} {s s' : Store} {w : List Waiting}
    (h : I ⟨.ask (.eval form env) w, s⟩)
    (leaves : ((Engine.core width depth).eval form env).Leaves s s') :
    Moment.Passes ⟨.ask (.eval form env) w, s⟩ s' := by
  rcases leaves with ⟨v, evaluation⟩ | ⟨stop, stopped⟩
  · obtain ⟨ds, course⟩ := (answers_of_run evaluation).course
    exact (Moment.Passes.here _).after (course w)
  · exact grounded.run_stops h stopped

end PocketLisp
