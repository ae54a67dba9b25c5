import PocketLisp.Proofs.ListedGlobals

/-!
# Evaluation in a store and without one

Evaluation in a store that represents globals, of what shows a value, gives what shows the result of
the reference semantics, and leaves a store that represents the globals then. This holds in both
directions, for every rule, so each of the two has an answer exactly if the other one has.
-/
namespace PocketLisp

/-- The goals of the two semantics that ask for the same. -/
inductive Asks (table global : Nat) (s : Store) : Goal → PureGoal → Prop where
  | eval {form : Value} {env : Env} {x : PureValue} {locals : Locals}
      (shows : Shows table global s form (.value x)) (holds : Holds table global s env locals) :
      Asks table global s (.eval form env) (.eval x locals)
  | args {done : List Value} {forms : Value} {env : Env} {x : PureValue} {locals : Locals}
      (shows : Shows table global s forms (.value x)) (holds : Holds table global s env locals) :
      Asks table global s (.args done forms env) (.args x locals)
  | body {last forms : Value} {env : Env} {y x : PureValue} {locals : Locals}
      (showsLast : Shows table global s last (.value y))
      (shows : Shows table global s forms (.value x)) (holds : Holds table global s env locals) :
      Asks table global s (.body last forms env) (.body y x locals)
  | apply {f args : Value} {y x : PureValue} (function : Shows table global s f (.value y))
      (shows : Shows table global s args (.value x)) :
      Asks table global s (.apply f args) (.apply y x)

def attachAll (done : List PureValue) (x : PureValue) : PureValue :=
  done.foldl (fun rest y => attach y rest) x

/-- The answer shows a value. In the answer to a list of arguments this is behind the values that
the goal has already. -/
def Goal.Yields (table global : Nat) (s s' : Store) (v : Value) (x : PureValue) : Goal → Prop
  | .args done _ _ => ∀ ys, List.Forall₂ (fun w y => Shows table global s w (.value y)) done ys →
      Shows table global s' v (.value (attachAll ys x))
  | _ => Shows table global s' v (.value x)

theorem Goal.Yields.shows {table global : Nat} {s s' : Store} {form v : Value} {env : Env}
    {x : PureValue} (h : (Goal.eval form env).Yields table global s s' v x) :
    Shows table global s' v (.value x) := h

theorem attachAll_of_isError {x : PureValue} (h : x.isError = true) (done : List PureValue) :
    attachAll done x = x := by
  induction done with
  | nil => rfl
  | cons y done ih =>
    have step : attach y x = x := by rw [attach, if_pos h]
    rw [attachAll, List.foldl_cons, step]
    exact ih

theorem attachAll_of_not_isError {x : PureValue} (h : x.isError = false) (done : List PureValue) :
    attachAll done x = done.reverse.foldr .cons x := by
  induction done generalizing x with
  | nil => rfl
  | cons y done ih =>
    have step : attach y x = .cons y x := by rw [attach, if_neg (by simp [h])]
    have rest := @ih (.cons y x) rfl
    rw [attachAll, List.foldl_cons, step, List.reverse_cons, List.foldr_append]
    exact rest

section forms

variable {table global : Nat} {s s' : Store} {g : Globals}

theorem Asks.rootedAt {goal : Goal} {pure : PureGoal} (h : Asks table global s goal pure) :
    goal.RootedAt global := by
  cases h with
  | eval _ env => exact env.root
  | args _ env => exact env.root
  | body _ _ env => exact env.root
  | apply _ _ => trivial

theorem Represents.growsAt (h : Represents table global s g) {goal : Goal} {pure : PureGoal}
    {v : Value} (asks : Asks table global s goal pure) (answers : Answers goal s v s') :
    GrowsAt global s s' :=
  (answers.growsAt h.global_lt h.rooted asks.rootedAt).1

theorem Shows.exists_atom {v : Value} {x : PureValue} (h : Shows table global s v (.value x))
    (cell : s.cell? v = none) : ∃ a, x = .atom a := by
  cases h with
  | cons _ some _ _ =>
    rw [Store.cell?, some] at cell
    cases cell
  | _ => exact ⟨_, rfl⟩

theorem Shows.exists_cons {a : Nat} {v w : Value} {x : PureValue}
    (h : Shows table global s (.cons a) (.value x)) (cell : s.cells[a]? = some ⟨v, w⟩) :
    ∃ y z, x = .cons y z ∧ Shows table global s v (.value y) := by
  cases h with
  | cons _ cell' car _ =>
    cases cell.symm.trans cell'
    exact ⟨_, _, rfl, car⟩

theorem Shows.branch {condition args : Value} {x y : PureValue}
    (hcondition : Shows table global s condition (.value x))
    (hargs : Shows table global s args (.value y)) :
    Shows table global s (s.branch condition args) (.value (branchOf x y)) := by
  rw [Store.branch, branchOf]
  by_cases hnil : condition = .nil
  · rw [if_pos hnil, if_pos (hcondition.eq_nil_iff.1 hnil)]
    exact hargs.cdr.cdr.car
  · rw [if_neg hnil, if_neg fun h => hnil (hcondition.eq_nil_iff.2 h)]
    exact hargs.cdr.car

/-- The head of a form is looked at before anything else is done. -/
theorem Represents.exists_head (h : Represents table global s g) {env : Env} {locals : Locals}
    (henv : Holds table global s env locals) {v : Value} {x y : PureValue}
    (form : Shows table global s v (.value (.cons x y))) :
    ∃ a op args s₁, v = .cons a ∧ s.cells[a]? = some ⟨op, args⟩ ∧
      s.keyword env.table op = (keywordOf x, s₁) ∧ Extends s s₁ ∧ Represents table global s₁ g ∧
      Holds table global s₁ env locals ∧ Shows table global s₁ op (.value x) ∧
      Shows table global s₁ args (.value y) := by
  cases form with
  | cons _ cell car cdr =>
    obtain ⟨s₁, head, extends', hg⟩ := h.keyword_eq car
    have grow := extends'.growsAt global
    rw [← henv.own] at head
    exact ⟨_, _, _, s₁, rfl, cell, head, extends', hg, henv.grow grow, car.grow grow,
      cdr.grow grow⟩

/-- A goal for a form with a head, where the form is known as a value. -/
theorem Represents.exists_form (h : Represents table global s g) {goal : Goal} {x y : PureValue}
    {locals : Locals} {k : Option Keyword}
    (asks : Asks table global s goal (.eval (.cons x y) locals)) (hk : keywordOf x = k) :
    ∃ a env op args s₁, goal = .eval (.cons a) env ∧ s.cells[a]? = some ⟨op, args⟩ ∧
      s.keyword env.table op = (k, s₁) ∧ Extends s s₁ ∧ Represents table global s₁ g ∧
      Holds table global s₁ env locals ∧ Shows table global s₁ op (.value x) ∧
      Shows table global s₁ args (.value y) := by
  cases asks with
  | @eval _ env _ _ shows holds =>
    obtain ⟨a, op, args, s₁, rfl, cell, head, rest⟩ := h.exists_head holds shows
    exact ⟨a, env, op, args, s₁, rfl, cell, hk ▸ head, rest⟩

/-- A goal for a form with a head, where the form is known as a cell. -/
theorem Represents.form (h : Represents table global s g) {a : Nat} {op args : Value} {env : Env}
    {pure : PureGoal} {k : Option Keyword} (asks : Asks table global s (.eval (.cons a) env) pure)
    (cell : s.cells[a]? = some ⟨op, args⟩) (head : s.keyword env.table op = (k, s')) :
    ∃ x y locals, pure = .eval (.cons x y) locals ∧ keywordOf x = k ∧
      Represents table global s' g ∧ Holds table global s' env locals ∧
      Shows table global s' op (.value x) ∧ Shows table global s' args (.value y) := by
  cases asks with
  | @eval _ _ _ locals shows holds =>
    obtain ⟨x, y, rfl, -⟩ := shows.exists_cons cell
    obtain ⟨a', op', args', s₁, ha, cell', head', -, rest⟩ := h.exists_head holds shows
    cases ha
    cases cell.symm.trans cell'
    obtain ⟨hk, rfl⟩ := Prod.mk.inj (head'.symm.trans head)
    exact ⟨x, y, locals, rfl, hk, rest⟩

section arguments

variable {done : List Value} {forms rest v w : Value} {env : Env} {x y : PureValue}

/-- An argument that is an error is all that is answered. -/
theorem Shows.yields_of_isError (h : Shows table global s' v (.value x))
    (error : x.isError = true) :
    (Goal.args done forms env).Yields table global s s' v x := by
  intro ys _
  rw [attachAll_of_isError error]
  exact h

/-- The value of an argument is in front of those of the arguments after it. -/
theorem Goal.Yields.attach {s₁ : Store}
    (h : (Goal.args (v :: done) rest env).Yields table global s₁ s' w y)
    (first : Shows table global s₁ v (.value x)) (grow : GrowsAt global s s₁) :
    (Goal.args done forms env).Yields table global s s' w (attach x y) := by
  intro ys elements
  exact h (x :: ys) (.cons first (elements.imp fun _ _ shows => shows.grow grow))

/-- The values of the arguments are put into a list in the end. -/
theorem Represents.argsEnd (h : Represents table global s g) (done : List Value) :
    Represents table global (s.ofList done.reverse).2 g ∧
      (Goal.args done forms env).Yields table global s (s.ofList done.reverse).2
        (s.ofList done.reverse).1 .nil := by
  refine ⟨(h.allocates (s.ofList_chain done.reverse).1).2, ?_⟩
  intro ys elements
  obtain ⟨-, -, list⟩ := h.ofList (List.rel_reverse elements)
  rw [attachAll_of_not_isError rfl]
  exact list

end arguments

/-- Where the goal asks for what a goal of the reference semantics asks for, in a store that
represents globals, its answer shows what the reference semantics makes of that goal. -/
def Reflects (table global : Nat) (goal : Goal) (s : Store) (v : Value) (s' : Store) : Prop :=
  ∀ {pure : PureGoal} {g : Globals}, Asks table global s goal pure → Represents table global s g →
    ∃ x g', Evaluates pure g x g' ∧ goal.Yields table global s s' v x ∧
      Represents table global s' g'

namespace Reflects
variable {a : Nat} {op args f v w : Value} {env : Env} {s₁ s₂ s₃ s₄ : Store}

theorem bound {sym : Symbol} {pair : Value}
    (found : s.findPair? env.frames (.sym sym) = some pair) :
    Reflects table global (.eval (.sym sym) env) s (s.cdr pair) s := by
  intro pure g asks hg
  cases asks with
  | @eval _ _ _ locals shows holds =>
    cases shows with
    | sym own =>
      have rel := hg.findPair?_rel holds own
      rw [found] at rel
      generalize hl : lookup locals g sym.name = o at rel
      cases rel with
      | some value => exact ⟨_, g, .bound hl, value, hg⟩

theorem unbound {sym : Symbol} (missing : s.findPair? env.frames (.sym sym) = none) :
    Reflects table global (.eval (.sym sym) env) s (s.error (sym.name ++ " has no value")).1
      (s.error (sym.name ++ " has no value")).2 := by
  intro pure g asks hg
  cases asks with
  | @eval _ _ _ locals shows holds =>
    cases shows with
    | sym own =>
      have rel := hg.findPair?_rel holds own
      rw [missing] at rel
      generalize hl : lookup locals g sym.name = o at rel
      cases rel with
      | none => exact ⟨_, g, .unbound hl, .error, (hg.allocates (Store.allocates_error _ _)).2⟩

theorem conditional {condition : Value} (cell : s.cells[a]? = some ⟨op, args⟩)
    (head : s.keyword env.table op = (some .conditional, s₁))
    (answers : Answers (.eval (s₁.car args) env) s₁ condition s₂)
    (test : Reflects table global (.eval (s₁.car args) env) s₁ condition s₂)
    (noError : condition.isError = false)
    (branch : Reflects table global (.eval (s₂.branch condition args) env) s₂ v s₃) :
    Reflects table global (.eval (.cons a) env) s v s₃ := by
  intro pure g asks hg
  obtain ⟨x, y, locals, rfl, hk, hg, holds, -, hargs⟩ := hg.form asks cell head
  have grow := hg.growsAt (.eval hargs.car holds) answers
  obtain ⟨z, g₁, value, result, hg⟩ := test (.eval hargs.car holds) hg
  have result := result.shows
  have shows := result.branch (hargs.grow grow)
  obtain ⟨_, g₂, value', result', hg⟩ := branch (.eval shows (holds.grow grow)) hg
  exact ⟨_, _, .conditional hk value (result.isError_eq ▸ noError) value', result', hg⟩

theorem defun {frame : Cell} (cell : s.cells[a]? = some ⟨op, args⟩)
    (head : s.keyword env.table op = (some .defun, s₁))
    (function : s₁.closure (s₁.car (s₁.cdr args)) (s₁.cdr (s₁.cdr args)) env = (f, s₂))
    (hframe : s₂.cell? env.globalFrames = some frame) :
    Reflects table global (.eval (.cons a) env) s (s₁.car args)
      (s₂.bind env.globalFrames frame.car (s₁.car args) f) := by
  intro pure g asks hg
  obtain ⟨x, y, locals, rfl, hk, hg, holds, -, hargs⟩ := hg.form asks cell head
  rw [holds.root] at hframe ⊢
  obtain ⟨grow, hg⟩ := hg.defun holds hargs.car hargs.cdr.car hargs.cdr.cdr function hframe
  exact ⟨_, _, .defun hk, hargs.car.grow grow, hg⟩

theorem application {values : Value} (cell : s.cells[a]? = some ⟨op, args⟩)
    (head : s.keyword env.table op = (none, s₁)) (answersF : Answers (.eval op env) s₁ f s₂)
    (function : Reflects table global (.eval op env) s₁ f s₂)
    (answersArgs : Answers (.args [] args env) s₂ values s₃)
    (arguments : Reflects table global (.args [] args env) s₂ values s₃)
    (result : Reflects table global (.apply f values) s₃ v s₄) :
    Reflects table global (.eval (.cons a) env) s v s₄ := by
  intro pure g asks hg
  obtain ⟨x, y, locals, rfl, hk, hg, holds, hop, hargs⟩ := hg.form asks cell head
  have grow := hg.growsAt (.eval hop holds) answersF
  obtain ⟨f, g₁, valueF, showsF, hg⟩ := function (.eval hop holds) hg
  have asks : Asks table global _ (.args [] _ _) _ := .args (hargs.grow grow) (holds.grow grow)
  have grow' := hg.growsAt asks answersArgs
  obtain ⟨xs, g₂, valueArgs, showsArgs, hg⟩ := arguments asks hg
  have showsF := showsF.shows
  obtain ⟨z, g₃, value, result, hg⟩ :=
    result (.apply (showsF.grow grow') (showsArgs [] .nil)) hg
  exact ⟨z, g₃, .application hk valueF valueArgs value, result, hg⟩

theorem argsNext {done : List Value} {form rest : Value} (cell : s.cells[a]? = some ⟨form, rest⟩)
    (answers : Answers (.eval form env) s v s₁)
    (value : Reflects table global (.eval form env) s v s₁) (noError : v.isError = false)
    (others : Reflects table global (.args (v :: done) (s₁.cdr (.cons a)) env) s₁ w s₂) :
    Reflects table global (.args done (.cons a) env) s w s₂ := by
  intro pure g asks hg
  cases asks with
  | args shows holds =>
    obtain ⟨y, z, rfl, first⟩ := shows.exists_cons cell
    have grow := hg.growsAt (.eval first holds) answers
    obtain ⟨x, g₁, evaluates, result, hg⟩ := value (.eval first holds) hg
    have noError := result.shows.isError_eq ▸ noError
    obtain ⟨w, g₂, evaluates', results, hg⟩ :=
      others (.args (shows.grow grow).cdr (holds.grow grow)) hg
    exact ⟨attach x w, g₂, .argsNext evaluates noError evaluates',
      results.attach result.shows grow, hg⟩

theorem bodyNext {last form rest : Value} (cell : s.cells[a]? = some ⟨form, rest⟩)
    (answers : Answers (.eval form env) s v s₁)
    (value : Reflects table global (.eval form env) s v s₁)
    (others : Reflects table global (.body v (s₁.cdr (.cons a)) env) s₁ w s₂) :
    Reflects table global (.body last (.cons a) env) s w s₂ := by
  intro pure g asks hg
  cases asks with
  | body showsLast shows holds =>
    obtain ⟨y, z, rfl, first⟩ := shows.exists_cons cell
    have grow := hg.growsAt (.eval first holds) answers
    obtain ⟨x, g₁, evaluates, result, hg⟩ := value (.eval first holds) hg
    obtain ⟨w, g₂, evaluates', result', hg⟩ :=
      others (.body result (shows.grow grow).cdr (holds.grow grow)) hg
    exact ⟨w, g₂, .bodyNext evaluates evaluates', result', hg⟩

theorem applyClosure {k : Nat} {c : Closure} (noError : args.isError = false)
    (closure : s.closures[k]? = some c) (frame : s.extend c.env c.params args = (env, s₁))
    (body : Reflects table global (.body .nil c.body env) s₁ v s₂) :
    Reflects table global (.apply (.expr k) args) s v s₂ := by
  intro pure g asks hg
  cases asks with
  | apply function shows =>
    cases function with
    | expr closure' own root showsParams showsBody showsLocals =>
      cases closure.symm.trans closure'
      obtain ⟨grow, hg, holds⟩ := hg.extend ⟨own, root, showsLocals⟩ showsParams shows
      rw [frame] at grow hg holds
      obtain ⟨x, g₁, evaluates, result, hg⟩ := body (.body .nil (showsBody.grow grow) holds) hg
      exact ⟨x, g₁, .applyClosure (shows.isError_eq ▸ noError) evaluates, result, hg⟩

theorem applyOther (noError : f.isError = false) (noArgsError : args.isError = false)
    (subr : ∀ serial procedure, f ≠ .subr serial procedure) (closure : ∀ k, f ≠ .expr k) :
    Reflects table global (.apply f args) s (s.error (s.print f ++ " is not function")).1
      (s.error (s.print f ++ " is not function")).2 := by
  intro pure g asks hg
  cases asks with
  | apply function shows =>
    refine ⟨_, g, .applyOther (function.isError_eq ▸ noError) (shows.isError_eq ▸ noArgsError)
      (fun b e => ?_) (fun params body locals e => ?_), ?_,
      (hg.allocates (Store.allocates_error _ _)).2⟩
    · subst e
      cases function
      exact subr _ _ rfl
    · subst e
      cases function
      exact closure _ rfl
    · rw [function.print_eq]
      exact .error

end Reflects

/-- What is answered in a store shows what the reference semantics makes of it. -/
theorem Answers.evaluates {goal : Goal} {v : Value} (h : Answers goal s v s') :
    Reflects table global goal s v s' := by
  induction h with
  | bound found => exact Reflects.bound found
  | unbound missing => exact Reflects.unbound missing
  | self symbol cell =>
    intro pure g asks hg
    cases asks with
    | eval shows holds =>
      obtain ⟨a, rfl⟩ := shows.exists_atom cell
      refine ⟨_, g, .self fun name e => ?_, shows, hg⟩
      subst e
      cases shows
      exact symbol _ rfl
  | quote cell head =>
    intro pure g asks hg
    obtain ⟨x, y, locals, rfl, hk, hg, -, -, hargs⟩ := hg.form asks cell head
    exact ⟨_, g, .quote hk, hargs.car, hg⟩
  | testError cell head test error ih =>
    intro pure g asks hg
    obtain ⟨x, y, locals, rfl, hk, hg, holds, -, hargs⟩ := hg.form asks cell head
    obtain ⟨z, g₁, value, result, hg⟩ := ih (.eval hargs.car holds) hg
    have result := result.shows
    exact ⟨_, _, .testError hk value (result.isError_eq ▸ error), result, hg⟩
  | conditional cell head test noError _ ihTest ihBranch =>
    exact Reflects.conditional cell head test ihTest noError ihBranch
  | lambda cell head =>
    intro pure g asks hg
    obtain ⟨x, y, locals, rfl, hk, hg, holds, -, hargs⟩ := hg.form asks cell head
    obtain ⟨-, hg, closure⟩ := hg.closure holds hargs.car hargs.cdr
    exact ⟨_, g, .lambda hk, closure, hg⟩
  | defun cell head function hframe => exact Reflects.defun cell head function hframe
  | application cell head function arguments _ ihFunction ihArguments ihResult =>
    exact Reflects.application cell head function ihFunction arguments ihArguments ihResult
  | @argsEnd done forms env s cell =>
    intro pure g asks hg
    cases asks with
    | args shows _ =>
      obtain ⟨a, rfl⟩ := shows.exists_atom cell
      obtain ⟨hg, list⟩ := hg.argsEnd done
      exact ⟨.nil, g, .argsEnd, list, hg⟩
  | argsError cell value error ih =>
    intro pure g asks hg
    cases asks with
    | args shows holds =>
      obtain ⟨y, z, rfl, first⟩ := shows.exists_cons cell
      obtain ⟨x, g₁, evaluates, result, hg⟩ := ih (.eval first holds) hg
      have hx : x.isError = true := result.shows.isError_eq ▸ error
      exact ⟨x, g₁, .argsError evaluates hx, result.shows.yields_of_isError hx, hg⟩
  | argsNext cell value noError _ ih ihOthers =>
    exact Reflects.argsNext cell value ih noError ihOthers
  | bodyEnd cell =>
    intro pure g asks hg
    cases asks with
    | body showsLast shows _ =>
      obtain ⟨a, rfl⟩ := shows.exists_atom cell
      exact ⟨_, g, .bodyEnd, showsLast, hg⟩
  | bodyNext cell value _ ih ihOthers => exact Reflects.bodyNext cell value ih ihOthers
  | applyError error =>
    intro pure g asks hg
    cases asks with
    | apply function _ => exact ⟨_, g, .applyError (function.isError_eq ▸ error), function, hg⟩
  | applyArgsError noError error =>
    intro pure g asks hg
    cases asks with
    | apply function shows =>
      exact ⟨_, g, .applyArgsError (function.isError_eq ▸ noError) (shows.isError_eq ▸ error),
        shows, hg⟩
  | applySubr noError =>
    intro pure g asks hg
    cases asks with
    | apply function shows =>
      cases function with
      | @subr _ b =>
        obtain ⟨-, hg, result⟩ := hg.call shows b
        exact ⟨_, g, .applyBuiltin (shows.isError_eq ▸ noError), result, hg⟩
  | applyClosure noError closure frame _ ih =>
    exact Reflects.applyClosure noError closure frame ih
  | applyOther noError noArgsError subr closure =>
    exact Reflects.applyOther noError noArgsError subr closure

/-- Each store that represents the globals `g` and is asked for the goal answers with what shows
`x`, and then it represents `g'`, and has the bindings `ds` in front of those that its global frame
had before. -/
def Realizes (table global : Nat) (pure : PureGoal) (g : Globals) (x : PureValue) (g' : Globals)
    (ds : List (PureValue × PureValue)) : Prop :=
  ∀ {goal : Goal} {s : Store}, Asks table global s goal pure → Represents table global s g →
    ∃ v s', Answers goal s v s' ∧ goal.Yields table global s s' v x ∧
      Represents table global s' g' ∧ Enlists table global ds s s'

theorem Realizes.atom {a : PureAtom} {x : PureValue} {locals : Locals} {g' : Globals}
    (h : Evaluates (.eval (.atom a) locals) g x g') :
    Realizes table global (.eval (.atom a) locals) g x g' [] := by
  intro goal s asks hg
  have same : Enlists table global [] s s := .of_extends (.refl s)
  cases asks with
  | eval shows holds =>
    cases h with
    | @bound name _ _ _ found =>
      cases shows with
      | @sym sym own =>
        have rel := hg.findPair?_rel holds own
        rw [found] at rel
        generalize hf : s.findPair? _ _ = o at rel
        cases rel with
        | some value => exact ⟨_, s, .bound hf, value, hg, same⟩
    | @unbound name _ _ missing =>
      cases shows with
      | @sym sym own =>
        have rel := hg.findPair?_rel holds own
        rw [missing] at rel
        generalize hf : s.findPair? _ _ = o at rel
        cases rel with
        | none =>
          have allocates := s.allocates_error (sym.name ++ " has no value")
          exact ⟨_, _, .unbound hf, .error, (hg.allocates allocates).2,
            .of_extends allocates.toExtends⟩
    | self symbol =>
      refine ⟨_, s, .self (fun sym e => ?_) shows.cell?_of_atom, shows, hg, same⟩
      subst e
      cases shows
      exact symbol _ rfl

theorem Realizes.quote {op args : PureValue} {locals : Locals} (hk : keywordOf op = some .quote) :
    Realizes table global (.eval (.cons op args) locals) g args.car g [] := by
  intro goal s asks hg
  obtain ⟨a, env, op, args, s₁, rfl, cell, head, extends', hg, -, -, hargs⟩ :=
    hg.exists_form asks hk
  exact ⟨_, s₁, .quote cell head, hargs.car, hg, .of_extends extends'⟩

namespace Realizes
variable {op args f x y z w : PureValue} {locals : Locals} {g₁ g₂ g₃ : Globals}
  {ds ds₁ ds₂ ds₃ : List (PureValue × PureValue)}

theorem testError (hk : keywordOf op = some .conditional) (error : x.isError = true)
    (test : Realizes table global (.eval args.car locals) g x g₁ ds) :
    Realizes table global (.eval (.cons op args) locals) g x g₁ ds := by
  intro goal s asks hg
  obtain ⟨a, env, op, args, s₁, rfl, cell, head, extends', hg, holds, -, hargs⟩ :=
    hg.exists_form asks hk
  obtain ⟨v, s₂, test, result, hg, enlists⟩ := test (.eval hargs.car holds) hg
  have result := result.shows
  exact ⟨v, s₂, .testError cell head test (result.isError_eq ▸ error), result, hg,
    enlists.after extends'⟩

theorem conditional (hk : keywordOf op = some .conditional) (noError : x.isError = false)
    (test : Realizes table global (.eval args.car locals) g x g₁ ds₁)
    (branch : Realizes table global (.eval (branchOf x args) locals) g₁ y g₂ ds₂) :
    Realizes table global (.eval (.cons op args) locals) g y g₂ (ds₂ ++ ds₁) := by
  intro goal s asks hg
  obtain ⟨a, env, op, args, s₁, rfl, cell, head, extends', hg, holds, -, hargs⟩ :=
    hg.exists_form asks hk
  obtain ⟨condition, s₂, answers, result, hg₂, enlists⟩ := test (.eval hargs.car holds) hg
  have result := result.shows
  have grow := hg.growsAt (.eval hargs.car holds) answers
  have shows := result.branch (hargs.grow grow)
  obtain ⟨v, s₃, answers', result', hg₃, enlists'⟩ := branch (.eval shows (holds.grow grow)) hg₂
  exact ⟨v, s₃, .conditional cell head answers (result.isError_eq ▸ noError) answers', result',
    hg₃, (enlists.after extends').trans enlists'⟩

theorem lambda (hk : keywordOf op = some .lambda) :
    Realizes table global (.eval (.cons op args) locals) g
      (.atom (.closure args.car args.cdr locals)) g [] := by
  intro goal s asks hg
  obtain ⟨a, env, op, args, s₁, rfl, cell, head, extends', hg, holds, -, hargs⟩ :=
    hg.exists_form asks hk
  obtain ⟨-, hg, closure⟩ := hg.closure holds hargs.car hargs.cdr
  exact ⟨_, _, .lambda cell head, closure, hg,
    .of_extends (extends'.trans (s₁.extends_closure _ _ _))⟩

theorem defun (hk : keywordOf op = some .defun) :
    Realizes table global (.eval (.cons op args) locals) g args.car
      (define g args.car (.atom (.closure args.cdr.car args.cdr.cdr locals)))
      [(args.car, .atom (.closure args.cdr.car args.cdr.cdr locals))] := by
  intro goal s asks hg
  obtain ⟨a, env, op, args, s₁, rfl, cell, head, extends', hg, holds, -, hargs⟩ :=
    hg.exists_form asks hk
  obtain ⟨-, hg₂, -⟩ := hg.closure holds hargs.cdr.car hargs.cdr.cdr
  obtain ⟨alist, bindings, hframe, -⟩ := hg₂.frame
  obtain ⟨grow, hg₃⟩ := hg.defun holds hargs.car hargs.cdr.car hargs.cdr.cdr rfl hframe
  have enlists := hg.enlists holds hargs.car hargs.cdr.car hargs.cdr.cdr rfl hframe
  rw [← holds.root] at grow hg₃ enlists
  rw [← Store.cell?, ← holds.root] at hframe
  exact ⟨_, _, .defun cell head rfl hframe, hargs.car.grow grow, hg₃, enlists.after extends'⟩

theorem application (hk : keywordOf op = none)
    (function : Realizes table global (.eval op locals) g f g₁ ds₁)
    (arguments : Realizes table global (.args args locals) g₁ x g₂ ds₂)
    (result : Realizes table global (.apply f x) g₂ y g₃ ds₃) :
    Realizes table global (.eval (.cons op args) locals) g y g₃ (ds₃ ++ (ds₂ ++ ds₁)) := by
  intro goal s asks hg
  obtain ⟨a, env, op, args, s₁, rfl, cell, head, extends', hg, holds, hop, hargs⟩ :=
    hg.exists_form asks hk
  obtain ⟨f, s₂, answersF, showsF, hg₂, enlists₁⟩ := function (.eval hop holds) hg
  have grow := hg.growsAt (.eval hop holds) answersF
  have asks : Asks table global s₂ (.args [] args env) (.args _ _) :=
    .args (hargs.grow grow) (holds.grow grow)
  obtain ⟨values, s₃, answersArgs, showsArgs, hg₃, enlists₂⟩ := arguments asks hg₂
  have grow' := hg₂.growsAt asks answersArgs
  have showsF := showsF.shows
  obtain ⟨v, s₄, answers, shows, hg₄, enlists₃⟩ :=
    result (.apply (showsF.grow grow') (showsArgs [] .nil)) hg₃
  exact ⟨v, s₄, .application cell head answersF answersArgs answers, shows, hg₄,
    ((enlists₁.after extends').trans enlists₂).trans enlists₃⟩

theorem argsError (error : w.isError = true)
    (value : Realizes table global (.eval x locals) g w g₁ ds) :
    Realizes table global (.args (.cons x y) locals) g w g₁ ds := by
  intro goal s asks hg
  cases asks with
  | args shows holds =>
    cases shows with
    | cons _ cell car _ =>
      obtain ⟨v, s₁, answers, result, hg, enlists⟩ := value (.eval car holds) hg
      have errorV := result.shows.isError_eq ▸ error
      exact ⟨v, s₁, .argsError cell answers errorV, result.shows.yields_of_isError error, hg,
        enlists⟩

theorem argsNext (noError : w.isError = false)
    (value : Realizes table global (.eval x locals) g w g₁ ds₁)
    (others : Realizes table global (.args y locals) g₁ z g₂ ds₂) :
    Realizes table global (.args (.cons x y) locals) g (attach w z) g₂ (ds₂ ++ ds₁) := by
  intro goal s asks hg
  cases asks with
  | args shows holds =>
    have list := shows
    cases shows with
    | cons _ cell car _ =>
      obtain ⟨v, s₁, answers, result, hg₁, enlists⟩ := value (.eval car holds) hg
      have noErrorV := result.shows.isError_eq ▸ noError
      have grow := hg.growsAt (.eval car holds) answers
      obtain ⟨values, s₂, answers', results, hg₂, enlists'⟩ :=
        others (.args (list.grow grow).cdr (holds.grow grow)) hg₁
      exact ⟨values, s₂, .argsNext cell answers noErrorV answers',
        results.attach result.shows grow, hg₂, enlists.trans enlists'⟩

theorem bodyNext {last : PureValue} (value : Realizes table global (.eval x locals) g w g₁ ds₁)
    (others : Realizes table global (.body w y locals) g₁ z g₂ ds₂) :
    Realizes table global (.body last (.cons x y) locals) g z g₂ (ds₂ ++ ds₁) := by
  intro goal s asks hg
  cases asks with
  | body showsLast shows holds =>
    have list := shows
    cases shows with
    | cons _ cell car _ =>
      obtain ⟨v, s₁, answers, result, hg₁, enlists⟩ := value (.eval car holds) hg
      have grow := hg.growsAt (.eval car holds) answers
      obtain ⟨last', s₂, answers', result', hg₂, enlists'⟩ :=
        others (.body result (list.grow grow).cdr (holds.grow grow)) hg₁
      exact ⟨last', s₂, .bodyNext cell answers answers', result', hg₂, enlists.trans enlists'⟩

theorem applyBuiltin {b : Builtin} (noError : args.isError = false) :
    Realizes table global (.apply (.atom (.builtin b)) args) g (b.result args) g [] := by
  intro goal s asks hg
  cases asks with
  | @apply _ values _ _ function shows =>
    cases function with
    | subr =>
      obtain ⟨-, hg, result⟩ := hg.call shows b
      exact ⟨_, _, .applySubr (shows.isError_eq ▸ noError), result, hg,
        .of_extends (s.allocates_call b.procedure values).toExtends⟩

theorem applyClosure {params body : PureValue} (noError : args.isError = false)
    (run : Realizes table global (.body .nil body (bindParams params args :: locals)) g x g₁ ds) :
    Realizes table global (.apply (.atom (.closure params body locals)) args) g x g₁ ds := by
  intro goal s asks hg
  cases asks with
  | @apply _ values _ _ function shows =>
    cases function with
    | @expr _ c _ _ _ closure own root showsParams showsBody showsLocals =>
      have extends' := (s.allocates_extend c.env c.params values).toExtends
      obtain ⟨grow, hg, holds⟩ := hg.extend ⟨own, root, showsLocals⟩ showsParams shows
      obtain ⟨v, s₁, answers, result, hg, enlists⟩ :=
        run (.body .nil (showsBody.grow grow) holds) hg
      exact ⟨v, s₁, .applyClosure (shows.isError_eq ▸ noError) closure rfl answers, result, hg,
        enlists.after extends'⟩

theorem applyOther (noError : f.isError = false) (noArgsError : args.isError = false)
    (builtin : ∀ b, f ≠ .atom (.builtin b))
    (closure : ∀ params body locals, f ≠ .atom (.closure params body locals)) :
    Realizes table global (.apply f args) g
      (.error (f.written pureSpelling ++ " is not function")) g [] := by
  intro goal s asks hg
  cases asks with
  | @apply f' _ _ _ function shows =>
    have allocates := s.allocates_error (s.print f' ++ " is not function")
    refine ⟨_, _, .applyOther (function.isError_eq ▸ noError) (shows.isError_eq ▸ noArgsError)
      (fun serial procedure e => ?_) (fun k e => ?_), ?_, (hg.allocates allocates).2,
      .of_extends allocates.toExtends⟩
    · subst e
      cases function
      exact builtin _ rfl
    · subst e
      cases function
      exact closure _ _ _ rfl
    · rw [← function.print_eq]
      exact .error

end Realizes

/-- What the reference semantics makes of a goal is what all stores make of it. -/
theorem Evaluates.realizes {pure : PureGoal} {x : PureValue} {g' : Globals}
    (h : Evaluates pure g x g') : ∃ ds, Realizes table global pure g x g' ds := by
  induction h with
  | bound found => exact ⟨[], Realizes.atom (.bound found)⟩
  | unbound missing => exact ⟨[], Realizes.atom (.unbound missing)⟩
  | self symbol => exact ⟨[], Realizes.atom (.self symbol)⟩
  | quote hk => exact ⟨[], Realizes.quote hk⟩
  | testError hk _ error ih =>
    obtain ⟨ds, ih⟩ := ih
    exact ⟨ds, Realizes.testError hk error ih⟩
  | conditional hk _ noError _ ihTest ihBranch =>
    obtain ⟨ds, ihTest⟩ := ihTest
    obtain ⟨ds', ihBranch⟩ := ihBranch
    exact ⟨ds' ++ ds, Realizes.conditional hk noError ihTest ihBranch⟩
  | lambda hk => exact ⟨[], Realizes.lambda hk⟩
  | defun hk => exact ⟨_, Realizes.defun hk⟩
  | application hk _ _ _ ihFunction ihArguments ihResult =>
    obtain ⟨ds₁, ihFunction⟩ := ihFunction
    obtain ⟨ds₂, ihArguments⟩ := ihArguments
    obtain ⟨ds₃, ihResult⟩ := ihResult
    exact ⟨ds₃ ++ (ds₂ ++ ds₁), Realizes.application hk ihFunction ihArguments ihResult⟩
  | argsEnd =>
    refine ⟨[], fun {_ s} asks hg => ?_⟩
    cases asks with
    | @args done forms env _ _ shows holds =>
      obtain ⟨hg, list⟩ := hg.argsEnd done
      exact ⟨_, _, .argsEnd shows.cell?_of_atom, list, hg,
        .of_extends (s.ofList_chain done.reverse).1.toExtends⟩
  | argsError _ error ih =>
    obtain ⟨ds, ih⟩ := ih
    exact ⟨ds, Realizes.argsError error ih⟩
  | argsNext _ noError _ ih ihOthers =>
    obtain ⟨ds, ih⟩ := ih
    obtain ⟨ds', ihOthers⟩ := ihOthers
    exact ⟨ds' ++ ds, Realizes.argsNext noError ih ihOthers⟩
  | bodyEnd =>
    refine ⟨[], fun asks hg => ?_⟩
    cases asks with
    | body showsLast shows holds =>
      exact ⟨_, _, .bodyEnd shows.cell?_of_atom, showsLast, hg, .of_extends (.refl _)⟩
  | bodyNext _ _ ih ihOthers =>
    obtain ⟨ds, ih⟩ := ih
    obtain ⟨ds', ihOthers⟩ := ihOthers
    exact ⟨ds' ++ ds, Realizes.bodyNext ih ihOthers⟩
  | applyError error =>
    refine ⟨[], fun asks hg => ?_⟩
    cases asks with
    | apply function shows =>
      exact ⟨_, _, .applyError (function.isError_eq ▸ error), function, hg, .of_extends (.refl _)⟩
  | applyArgsError noError error =>
    refine ⟨[], fun asks hg => ?_⟩
    cases asks with
    | apply function shows =>
      exact ⟨_, _, .applyArgsError (function.isError_eq ▸ noError) (shows.isError_eq ▸ error),
        shows, hg, .of_extends (.refl _)⟩
  | applyBuiltin noError => exact ⟨[], Realizes.applyBuiltin noError⟩
  | applyClosure noError _ ih =>
    obtain ⟨ds, ih⟩ := ih
    exact ⟨ds, Realizes.applyClosure noError ih⟩
  | applyOther noError noArgsError builtin closure =>
    exact ⟨[], Realizes.applyOther noError noArgsError builtin closure⟩

/-- What the reference semantics makes of a goal is shown by what is answered in a store. -/
theorem Evaluates.answers {goal : Goal} {pure : PureGoal} {x : PureValue} {g' : Globals}
    (h : Evaluates pure g x g') (asks : Asks table global s goal pure)
    (hg : Represents table global s g) :
    ∃ v s', Answers goal s v s' ∧ goal.Yields table global s s' v x ∧
      Represents table global s' g' := by
  obtain ⟨ds, realizes⟩ := h.realizes
  obtain ⟨v, s', answers, result, hg', -⟩ := realizes asks hg
  exact ⟨v, s', answers, result, hg'⟩

end forms

end PocketLisp
