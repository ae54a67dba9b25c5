import PocketLisp.Proofs.FrameCells

/-!
# Evaluation works on data

All values that an evaluation goes on with are data that does not go through the cell of the global
frame: forms, arguments and results. Each step takes its values from the parts of others, from what
is bound, or from what it has newly built, so all moments of a session have only such values.
-/
namespace PocketLisp

def Goal.values : Goal → List Value
  | .eval form _ => [form]
  | .args done forms _ => forms :: done
  | .body last forms _ => [last, forms]
  | .apply f arguments => [f, arguments]

def Waiting.values : Waiting → List Value
  | .test args _ => [args]
  | .function args _ => [args]
  | .arguments f => [f]
  | .argument done a _ => .cons a :: done
  | .form a _ => [.cons a]

def Stage.values : Stage → List Value
  | .idle => []
  | .ask g w => g.values ++ w.flatMap Waiting.values
  | .give v w => v :: w.flatMap Waiting.values

/-- All environments belong to the session, its cells are those of data and those of frame lists,
and the evaluation that is going on works on data. -/
structure Separated (root : Env) (global : Nat) (m : Moment) : Prop extends Consistent root m where
  frame : root.frames = .cons global
  layered : Layered global m.store
  values : ∀ v ∈ m.stage.values, AwayFrom global m.store v

section steps

variable {root : Env} {global : Nat} {m m' : Moment} {ds : List Defined} {s s' : Store}

theorem Separated.globalFrames (h : Separated root global m) :
    ∀ env ∈ m.stage.envs, env.globalFrames = .cons global := fun env henv =>
  (h.environments env (.inr (.inr henv))).globalFrames_eq.trans h.frame

/-- A step changes no cell but that of the global frame. -/
theorem Effect.keepsInner (h : Effect m ds s)
    (roots : ∀ env ∈ m.stage.envs, env.globalFrames = .cons global) :
    KeepsInner global m.store s := by
  cases h with
  | data adds => exact .of_extends adds.toExtends
  | closure adds _ params body =>
    exact .of_extends (adds.toExtends.trans (Store.extends_closure _ params body _))
  | @define s t env params body _ _ frame adds known function hframe =>
    have growClosure := s.extends_closure params body env
    rw [function] at growClosure
    rw [roots env known] at hframe ⊢
    exact (KeepsInner.of_extends (adds.toExtends.trans growClosure)).trans (.bind hframe _ _)

/-- The head and the arguments of a form, after the head has been compared to the keywords. -/
theorem IsData.keyword {a table : Nat} {op args : Value} {k : Option Keyword}
    (h : AwayFrom global s (.cons a)) (cell : s.cells[a]? = some ⟨op, args⟩)
    (head : s.keyword table op = (k, s')) :
    AwayFrom global s' op ∧ AwayFrom global s' args := by
  obtain ⟨hop, hargs⟩ := h.parts cell
  have grow := (addsData_of_keyword head).toExtends
  exact ⟨hop.extend grow, hargs.extend grow⟩

theorem IsData.branch {v args : Value} (h : AwayFrom global s args) :
    AwayFrom global s (s.branch v args) := by
  unfold Store.branch
  split
  · exact h.cdr.cdr.car
  · exact h.cdr.car

/-- A definition changes the cell of the global frame, which no data goes through. -/
theorem Layered.defun {k : Nat} {args : Value} {env : Env} {frame : Cell} (h : Layered global s)
    (hargs : AwayFrom global s args)
    (function : s.closure (s.car (s.cdr args)) (s.cdr (s.cdr args)) env = (.expr k, s'))
    (hframe : s'.cell? (.cons global) = some frame) :
    Layered global (s'.bind (.cons global) frame.car (s.car args) (.expr k)) ∧
      AwayFrom global (s'.bind (.cons global) frame.car (s.car args) (.expr k)) (s.car args) := by
  have grow := s.extends_closure (s.car (s.cdr args)) (s.cdr (s.cdr args)) env
  have made := h.closure hargs.cdr.car hargs.cdr.cdr env
  rw [function] at grow made
  have name := hargs.car.extend grow
  exact ⟨made.bind hframe name (.atom nofun), name.keep (.bind hframe (s.car args) (.expr k))⟩

/-- A step goes on with data, and all that it adds to the store is data or the frame of a call. -/
theorem Step.layered (step : Step m ds m') (h : Separated root global m) :
    Layered global m'.store ∧ ∀ v ∈ m'.stage.values, AwayFrom global m'.store v := by
  have keeps := step.effect.keepsInner h.globalFrames
  have keep : ∀ {vs : List Value}, (∀ v ∈ vs, AwayFrom global m.store v) →
      ∀ v ∈ vs, AwayFrom global m'.store v := fun hvs v hv => (hvs v hv).keep keeps
  have layered := h.layered
  have values := h.values
  cases step with
  | @bound sym env w s pair found =>
    have belongs := h.environments env (.inr (.inr List.mem_cons_self))
    have value := (layered.belongs h.frame belongs).cdr_of_findPair? layered found
    exact ⟨layered, List.forall_mem_cons.2 ⟨value, (List.forall_mem_cons.1 values).2⟩⟩
  | @unbound sym env w s _ =>
    obtain ⟨fill, value⟩ : Fills (· ≠ global) s _ ∧ _ :=
      fills_error (s := s) (sym.name ++ " has no value")
    exact ⟨layered.fills fill,
      List.forall_mem_cons.2 ⟨value, keep (List.forall_mem_cons.1 values).2⟩⟩
  | self _ _ => exact ⟨layered, values⟩
  | quote cell head =>
    obtain ⟨form, others⟩ := List.forall_mem_cons.1 values
    obtain ⟨-, args⟩ := form.keyword cell head
    exact ⟨layered.fills (fills_keyword head), List.forall_mem_cons.2 ⟨args.car, keep others⟩⟩
  | test cell head =>
    obtain ⟨form, others⟩ := List.forall_mem_cons.1 values
    obtain ⟨-, args⟩ := form.keyword cell head
    exact ⟨layered.fills (fills_keyword head),
      List.forall_mem_cons.2 ⟨args.car, List.forall_mem_cons.2 ⟨args, keep others⟩⟩⟩
  | testError _ =>
    obtain ⟨value, others⟩ := List.forall_mem_cons.1 values
    exact ⟨layered, List.forall_mem_cons.2 ⟨value, (List.forall_mem_cons.1 others).2⟩⟩
  | branch _ =>
    obtain ⟨-, others⟩ := List.forall_mem_cons.1 values
    obtain ⟨args, others⟩ := List.forall_mem_cons.1 others
    exact ⟨layered, List.forall_mem_cons.2 ⟨args.branch, others⟩⟩
  | @lambda a op args env w s s₁ cell head =>
    obtain ⟨form, others⟩ := List.forall_mem_cons.1 values
    obtain ⟨-, args⟩ := form.keyword cell head
    exact ⟨(layered.fills (fills_keyword head)).closure args.car args.cdr env,
      List.forall_mem_cons.2 ⟨.atom nofun, keep others⟩⟩
  | @defun a k op args env w s s₁ s₂ frame cell head function hframe =>
    obtain ⟨form, others⟩ := List.forall_mem_cons.1 values
    obtain ⟨-, hargs⟩ := form.keyword cell head
    rw [h.globalFrames env List.mem_cons_self] at hframe keep ⊢
    obtain ⟨made, name⟩ := (layered.fills (fills_keyword head)).defun hargs function hframe
    exact ⟨made, List.forall_mem_cons.2 ⟨name, keep others⟩⟩
  | function cell head =>
    obtain ⟨form, others⟩ := List.forall_mem_cons.1 values
    obtain ⟨op, args⟩ := form.keyword cell head
    exact ⟨layered.fills (fills_keyword head),
      List.forall_mem_cons.2 ⟨op, List.forall_mem_cons.2 ⟨args, keep others⟩⟩⟩
  | arguments =>
    obtain ⟨f, others⟩ := List.forall_mem_cons.1 values
    obtain ⟨args, others⟩ := List.forall_mem_cons.1 others
    exact ⟨layered, List.forall_mem_cons.2 ⟨args, List.forall_mem_cons.2 ⟨f, others⟩⟩⟩
  | application =>
    obtain ⟨args, others⟩ := List.forall_mem_cons.1 values
    obtain ⟨f, others⟩ := List.forall_mem_cons.1 others
    exact ⟨layered, List.forall_mem_cons.2 ⟨f, List.forall_mem_cons.2 ⟨args, others⟩⟩⟩
  | @argsEnd done forms env w s _ =>
    obtain ⟨goal, others⟩ := List.forall_mem_append.1 values
    have hdone := (List.forall_mem_cons.1 goal).2
    obtain ⟨fill, value⟩ := fills_ofList (fun v hv => hdone v (List.mem_reverse.1 hv))
      layered.inner
    exact ⟨layered.fills fill, List.forall_mem_cons.2 ⟨value, keep others⟩⟩
  | argument cell =>
    obtain ⟨forms, others⟩ := List.forall_mem_cons.1 values
    exact ⟨layered, List.forall_mem_cons.2 ⟨(forms.parts cell).1, values⟩⟩
  | argsError _ =>
    obtain ⟨value, others⟩ := List.forall_mem_cons.1 values
    obtain ⟨-, others⟩ := List.forall_mem_append.1 others
    exact ⟨layered, List.forall_mem_cons.2 ⟨value, others⟩⟩
  | argsNext _ =>
    obtain ⟨value, others⟩ := List.forall_mem_cons.1 values
    obtain ⟨forms, others⟩ := List.forall_mem_cons.1 others
    exact ⟨layered, List.forall_mem_cons.2 ⟨forms.cdr, List.forall_mem_cons.2 ⟨value, others⟩⟩⟩
  | bodyEnd _ =>
    obtain ⟨last, others⟩ := List.forall_mem_cons.1 values
    exact ⟨layered, List.forall_mem_cons.2 ⟨last, (List.forall_mem_cons.1 others).2⟩⟩
  | form cell =>
    obtain ⟨-, others⟩ := List.forall_mem_cons.1 values
    obtain ⟨forms, -⟩ := List.forall_mem_cons.1 others
    exact ⟨layered, List.forall_mem_cons.2 ⟨(forms.parts cell).1, others⟩⟩
  | bodyNext =>
    obtain ⟨value, others⟩ := List.forall_mem_cons.1 values
    obtain ⟨forms, others⟩ := List.forall_mem_cons.1 others
    exact ⟨layered, List.forall_mem_cons.2 ⟨value, List.forall_mem_cons.2 ⟨forms.cdr, others⟩⟩⟩
  | applyError _ =>
    obtain ⟨f, others⟩ := List.forall_mem_cons.1 values
    exact ⟨layered, List.forall_mem_cons.2 ⟨f, (List.forall_mem_cons.1 others).2⟩⟩
  | applyArgsError _ _ => exact ⟨layered, (List.forall_mem_cons.1 values).2⟩
  | @applySubr serial procedure args w s _ =>
    obtain ⟨-, others⟩ := List.forall_mem_cons.1 values
    obtain ⟨hargs, others⟩ := List.forall_mem_cons.1 others
    obtain ⟨fill, value⟩ := fills_call hargs procedure layered.inner
    exact ⟨layered.fills fill, List.forall_mem_cons.2 ⟨value, keep others⟩⟩
  | @applyClosure k c args env w s s₁ _ closure frame =>
    obtain ⟨-, others⟩ := List.forall_mem_cons.1 values
    obtain ⟨hargs, others⟩ := List.forall_mem_cons.1 others
    obtain ⟨params, body⟩ := layered.closures k c closure
    have belongs := h.environments c.env (.inr (.inl ⟨k, c, closure, rfl⟩))
    have extended := layered.extend (layered.belongs h.frame belongs) params hargs
    rw [frame] at extended
    exact ⟨extended, List.forall_mem_cons.2 ⟨.atom nofun,
      List.forall_mem_cons.2 ⟨body.keep keeps, keep others⟩⟩⟩
  | @applyOther f args w s _ _ _ _ =>
    obtain ⟨-, others⟩ := List.forall_mem_cons.1 values
    obtain ⟨fill, value⟩ : Fills (· ≠ global) s _ ∧ _ :=
      fills_error (s := s) (s.print f ++ " is not function")
    exact ⟨layered.fills fill,
      List.forall_mem_cons.2 ⟨value, keep (List.forall_mem_cons.1 others).2⟩⟩

namespace Separated

theorem idle (h : Separated root global m) : Separated root global ⟨.idle, m.store⟩ :=
  ⟨h.toConsistent.idle, h.frame, h.layered, List.forall_mem_nil _⟩

theorem turn (h : Separated root global m) (turn : Turn root m ds m') :
    KeepsInner global m.store m'.store ∧ Separated root global m' := by
  cases turn with
  | givenUp => exact ⟨.of_extends (.refl _), h.idle⟩
  | move move =>
    have consistent := (h.toConsistent.move move).2
    cases move with
    | step step =>
      obtain ⟨layered, values⟩ := step.layered h
      exact ⟨step.effect.keepsInner h.globalFrames, consistent, h.frame, layered, values⟩
    | line reading =>
      obtain ⟨fill, form⟩ := fills_read.1 _ _ reading
      exact ⟨.of_extends fill.toExtends, consistent, h.frame,
        h.layered.fills (fill.mono h.layered.inner),
        List.forall_mem_singleton.2 (form.mono h.layered.inner)⟩
    | refused reading =>
      have fill := fills_read.2 _ reading
      exact ⟨.of_extends fill.toExtends, consistent, h.frame,
        h.layered.fills (fill.mono h.layered.inner), List.forall_mem_nil _⟩
    | answered => exact ⟨.of_extends (.refl _), h.idle⟩

theorem course (h : Separated root global m) (course : Course (Turn root) m ds m') :
    KeepsInner global m.store m'.store ∧ Separated root global m' := by
  induction course with
  | refl => exact ⟨.of_extends (.refl _), h⟩
  | next _ last ih =>
    obtain ⟨keeps, separated⟩ := ih
    obtain ⟨keeps', separated'⟩ := separated.turn last
    exact ⟨keeps.trans keeps', separated'⟩

theorem ask (h : Separated root global m) {env : Env} (known : m.Knows root env) {form : Value}
    (hform : AwayFrom global m.store form) :
    Separated root global ⟨.ask (.eval form env) [], m.store⟩ :=
  ⟨h.toConsistent.ask known form, h.frame, h.layered, List.forall_mem_singleton.2 hform⟩

/-- An evaluation of data in an environment of the session gives data, and keeps what is going on
around it. -/
theorem eval (h : Separated root global m) {env : Env} (known : m.Knows root env)
    {width depth : Nat} {form v : Value} (hform : AwayFrom global m.store form)
    (evaluation : (Engine.core width depth).eval form env m.store = .ok v s) :
    KeepsInner global m.store s ∧ Separated root global ⟨m.stage, s⟩ ∧ AwayFrom global s v := by
  obtain ⟨ds, steps⟩ := eval_iff_performs.1 ⟨width, depth, evaluation⟩
  obtain ⟨keeps, finished⟩ := (h.ask known hform).course (steps.mono fun step => .move (.step step))
  exact ⟨keeps, ⟨h.toConsistent.eval known (.inl ⟨v, evaluation⟩), h.frame, finished.layered,
    fun v hv => (h.values v hv).keep keeps⟩, finished.values v List.mem_cons_self⟩

end Separated

/-- The cells of a fresh session are those of what is bound at first, and that of the frame. -/
theorem layered_newSession (fresh : Env.newSession Store.empty = .ok root s) :
    root.frames = .cons 0 ∧ Layered 0 s := by
  have same := newSession_eq.symm.trans fresh
  simp only [EStateM.Result.ok.injEq] at same
  obtain ⟨rfl, same⟩ := same
  have pairs : ∀ a ∈ [7, 5, 3, 1], AwayFrom 0 s (.cons a) := by
    subst same
    simp only [List.forall_mem_cons]
    exact ⟨.cell rfl (by decide) (.atom nofun) (.atom nofun),
      .cell rfl (by decide) (.atom nofun) (.atom nofun),
      .cell rfl (by decide) (.atom nofun) (.atom nofun),
      .cell rfl (by decide) (.atom nofun) (.atom nofun), List.forall_mem_nil _⟩
  have chain : Chain s .nil (.cons 8) [8, 6, 4, 2] ([7, 5, 3, 1].map .cons) := by
    subst same
    exact .cons rfl (.cons rfl (.cons rfl (.cons rfl .nil)))
  obtain ⟨bound, links⟩ := IsData.of_chain chain (by decide) (List.forall_mem_map.2 pairs)
    (.atom nofun)
  have frame : s.cells[0]? = some ⟨.cons 8, .nil⟩ := by
    subst same
    rfl
  refine ⟨rfl, ⟨_, frame, bound⟩, fun a ha => ?_, fun k c closure => ?_⟩
  · have size : s.cells.size = 9 := by
      subst same
      rfl
    have kinds : a = 0 ∨ a ∈ [7, 5, 3, 1] ∨ a ∈ [8, 6, 4, 2] := by
      simp only [List.mem_cons, List.not_mem_nil]
      omega
    obtain rfl | pair | link := kinds
    · exact .inr .root
    · exact .inl (pairs a pair)
    · exact .inl (links a link)
  · subst same
    simp at closure

theorem Visited.separated (h : Visited root m) : ∃ global, Separated root global m := by
  obtain ⟨s, ds, fresh, course⟩ := h
  obtain ⟨frame, layered⟩ := layered_newSession fresh
  have start : Separated root 0 ⟨.idle, s⟩ :=
    ⟨consistent_newSession fresh, frame, layered, List.forall_mem_nil _⟩
  exact ⟨0, (start.course course).2⟩

end steps

end PocketLisp
