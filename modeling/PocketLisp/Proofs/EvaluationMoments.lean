import PocketLisp.Proofs.EvaluationRuns

/-!
# The moments of an evaluation

An evaluation step by step. At each moment it is before a goal or has its value, and further parts
of the evaluation wait for that value. The steps that carry out a definition are labelled with it.
Where the rules derive an answer, steps lead from the goal to its value, and the other way round; an
evaluation that does not end has its moments all the same. The moments of a session are those of the
evaluations of its lines, one after the other.
-/
namespace PocketLisp

/-- What waits for a value: a conditional for that of its test, an application for that of its head
or for those of its arguments, and a list of forms for that of one of them. -/
inductive Waiting where
  | test (args : Value) (env : Env)
  | function (args : Value) (env : Env)
  | arguments (f : Value)
  | argument (done : List Value) (cell : Nat) (env : Env)
  | form (cell : Nat) (env : Env)

/-- Where a session is: between two lines, before a goal, or at its value. What waits comes with the
innermost first. -/
inductive Stage where
  | idle
  | ask (goal : Goal) (waiting : List Waiting)
  | give (value : Value) (waiting : List Waiting)

structure Moment where
  stage : Stage
  store : Store

/-- A definition that has been carried out: the name, and the closure with its place. -/
structure Defined where
  name : Value
  place : Nat
  closure : Closure

/-- `Step m ds m'`: an evaluation goes on from `m` to `m'`, and the definitions `ds` are carried out
by that. -/
inductive Step : Moment → List Defined → Moment → Prop where
  | bound {sym : Symbol} {env : Env} {w : List Waiting} {s : Store} {pair : Value}
      (found : s.findPair? env.frames (.sym sym) = some pair) :
      Step ⟨.ask (.eval (.sym sym) env) w, s⟩ [] ⟨.give (s.cdr pair) w, s⟩
  | unbound {sym : Symbol} {env : Env} {w : List Waiting} {s : Store}
      (missing : s.findPair? env.frames (.sym sym) = none) :
      Step ⟨.ask (.eval (.sym sym) env) w, s⟩ []
        ⟨.give (s.error (sym.name ++ " has no value")).1 w,
          (s.error (sym.name ++ " has no value")).2⟩
  | self {form : Value} {env : Env} {w : List Waiting} {s : Store}
      (symbol : ∀ sym, form ≠ .sym sym) (cell : s.cell? form = none) :
      Step ⟨.ask (.eval form env) w, s⟩ [] ⟨.give form w, s⟩
  | quote {a : Nat} {op args : Value} {env : Env} {w : List Waiting} {s s₁ : Store}
      (cell : s.cells[a]? = some ⟨op, args⟩)
      (head : s.keyword env.table op = (some .quote, s₁)) :
      Step ⟨.ask (.eval (.cons a) env) w, s⟩ [] ⟨.give (s₁.car args) w, s₁⟩
  | test {a : Nat} {op args : Value} {env : Env} {w : List Waiting} {s s₁ : Store}
      (cell : s.cells[a]? = some ⟨op, args⟩)
      (head : s.keyword env.table op = (some .conditional, s₁)) :
      Step ⟨.ask (.eval (.cons a) env) w, s⟩ []
        ⟨.ask (.eval (s₁.car args) env) (.test args env :: w), s₁⟩
  | testError {v args : Value} {env : Env} {w : List Waiting} {s : Store}
      (error : v.isError = true) : Step ⟨.give v (.test args env :: w), s⟩ [] ⟨.give v w, s⟩
  | branch {v args : Value} {env : Env} {w : List Waiting} {s : Store}
      (value : v.isError = false) :
      Step ⟨.give v (.test args env :: w), s⟩ [] ⟨.ask (.eval (s.branch v args) env) w, s⟩
  | lambda {a : Nat} {op args : Value} {env : Env} {w : List Waiting} {s s₁ : Store}
      (cell : s.cells[a]? = some ⟨op, args⟩)
      (head : s.keyword env.table op = (some .lambda, s₁)) :
      Step ⟨.ask (.eval (.cons a) env) w, s⟩ []
        ⟨.give (s₁.closure (s₁.car args) (s₁.cdr args) env).1 w,
          (s₁.closure (s₁.car args) (s₁.cdr args) env).2⟩
  | defun {a k : Nat} {op args : Value} {env : Env} {w : List Waiting} {s s₁ s₂ : Store}
      {frame : Cell} (cell : s.cells[a]? = some ⟨op, args⟩)
      (head : s.keyword env.table op = (some .defun, s₁))
      (function : s₁.closure (s₁.car (s₁.cdr args)) (s₁.cdr (s₁.cdr args)) env = (.expr k, s₂))
      (global : s₂.cell? env.globalFrames = some frame) :
      Step ⟨.ask (.eval (.cons a) env) w, s⟩
        [⟨s₁.car args, k, ⟨s₁.car (s₁.cdr args), s₁.cdr (s₁.cdr args), env⟩⟩]
        ⟨.give (s₁.car args) w, s₂.bind env.globalFrames frame.car (s₁.car args) (.expr k)⟩
  | function {a : Nat} {op args : Value} {env : Env} {w : List Waiting} {s s₁ : Store}
      (cell : s.cells[a]? = some ⟨op, args⟩) (head : s.keyword env.table op = (none, s₁)) :
      Step ⟨.ask (.eval (.cons a) env) w, s⟩ [] ⟨.ask (.eval op env) (.function args env :: w), s₁⟩
  | arguments {f args : Value} {env : Env} {w : List Waiting} {s : Store} :
      Step ⟨.give f (.function args env :: w), s⟩ []
        ⟨.ask (.args [] args env) (.arguments f :: w), s⟩
  | application {f values : Value} {w : List Waiting} {s : Store} :
      Step ⟨.give values (.arguments f :: w), s⟩ [] ⟨.ask (.apply f values) w, s⟩
  | argsEnd {done : List Value} {forms : Value} {env : Env} {w : List Waiting} {s : Store}
      (cell : s.cell? forms = none) :
      Step ⟨.ask (.args done forms env) w, s⟩ []
        ⟨.give (s.ofList done.reverse).1 w, (s.ofList done.reverse).2⟩
  | argument {done : List Value} {a : Nat} {form rest : Value} {env : Env} {w : List Waiting}
      {s : Store} (cell : s.cells[a]? = some ⟨form, rest⟩) :
      Step ⟨.ask (.args done (.cons a) env) w, s⟩ []
        ⟨.ask (.eval form env) (.argument done a env :: w), s⟩
  | argsError {v : Value} {done : List Value} {a : Nat} {env : Env} {w : List Waiting} {s : Store}
      (error : v.isError = true) :
      Step ⟨.give v (.argument done a env :: w), s⟩ [] ⟨.give v w, s⟩
  | argsNext {v : Value} {done : List Value} {a : Nat} {env : Env} {w : List Waiting} {s : Store}
      (noError : v.isError = false) :
      Step ⟨.give v (.argument done a env :: w), s⟩ []
        ⟨.ask (.args (v :: done) (s.cdr (.cons a)) env) w, s⟩
  | bodyEnd {last forms : Value} {env : Env} {w : List Waiting} {s : Store}
      (cell : s.cell? forms = none) :
      Step ⟨.ask (.body last forms env) w, s⟩ [] ⟨.give last w, s⟩
  | form {last form rest : Value} {a : Nat} {env : Env} {w : List Waiting} {s : Store}
      (cell : s.cells[a]? = some ⟨form, rest⟩) :
      Step ⟨.ask (.body last (.cons a) env) w, s⟩ [] ⟨.ask (.eval form env) (.form a env :: w), s⟩
  | bodyNext {v : Value} {a : Nat} {env : Env} {w : List Waiting} {s : Store} :
      Step ⟨.give v (.form a env :: w), s⟩ [] ⟨.ask (.body v (s.cdr (.cons a)) env) w, s⟩
  | applyError {f args : Value} {w : List Waiting} {s : Store} (error : f.isError = true) :
      Step ⟨.ask (.apply f args) w, s⟩ [] ⟨.give f w, s⟩
  | applyArgsError {f args : Value} {w : List Waiting} {s : Store} (noError : f.isError = false)
      (error : args.isError = true) : Step ⟨.ask (.apply f args) w, s⟩ [] ⟨.give args w, s⟩
  | applySubr {serial : Nat} {procedure : Procedure} {args : Value} {w : List Waiting} {s : Store}
      (noError : args.isError = false) :
      Step ⟨.ask (.apply (.subr serial procedure) args) w, s⟩ []
        ⟨.give (s.call procedure args).1 w, (s.call procedure args).2⟩
  | applyClosure {k : Nat} {c : Closure} {args : Value} {env : Env} {w : List Waiting}
      {s s₁ : Store} (noError : args.isError = false) (closure : s.closures[k]? = some c)
      (frame : s.extend c.env c.params args = (env, s₁)) :
      Step ⟨.ask (.apply (.expr k) args) w, s⟩ [] ⟨.ask (.body .nil c.body env) w, s₁⟩
  | applyOther {f args : Value} {w : List Waiting} {s : Store} (noError : f.isError = false)
      (noArgsError : args.isError = false) (subr : ∀ serial procedure, f ≠ .subr serial procedure)
      (closure : ∀ k, f ≠ .expr k) :
      Step ⟨.ask (.apply f args) w, s⟩ []
        ⟨.give (s.error (s.print f ++ " is not function")).1 w,
          (s.error (s.print f ++ " is not function")).2⟩

/-- The evaluation has come to a definition with these arguments, and `s` is the store once its head
has been told from the other special forms. -/
def Moment.AtDefun (m : Moment) (args : Value) (env : Env) (s : Store) : Prop :=
  ∃ a op w, m.stage = .ask (.eval (.cons a) env) w ∧ m.store.cells[a]? = some ⟨op, args⟩ ∧
    m.store.keyword env.table op = (some .defun, s)

/-- `m.Executes ds s'`: where the evaluation has come to a definition, evaluation of the form is
`evalDefun`, it leaves `s'`, and `ds` is the definition that it makes; elsewhere `ds` is empty. -/
def Moment.Executes (m : Moment) (ds : List Defined) (s' : Store) : Prop :=
  (∃ form args env w s, m.AtDefun args env s ∧ m.stage = .ask (.eval form env) w ∧
    (∀ host width answer, evalStep host width answer form env m.store = evalDefun args env s) ∧
    evalDefun args env s = .ok (s.car args) s' ∧
    ds = [⟨s.car args, s.closures.size, ⟨s.car (s.cdr args), s.cdr (s.cdr args), env⟩⟩]) ∨
  (ds = [] ∧ ∀ args env s, ¬ m.AtDefun args env s)

/-- The labels of a step are the definitions that the evaluator makes there. -/
theorem Step.executes {m m' : Moment} {ds : List Defined} (h : Step m ds m') :
    m.Executes ds m'.store := by
  cases h with
  | @defun a k op args env w s s₁ s₂ frame cell head function global =>
    obtain ⟨place, -⟩ := Store.closure_eq_iff.1 function
    cases place
    refine .inl ⟨_, args, env, w, s₁, ⟨a, op, w, rfl, cell, head⟩, rfl, ?_, ?_, rfl⟩
    · intro host width answer
      rw [evalStep_cell width answer cell, evalCell_apply, head]
    · exact evalDefun_apply_of_some function global
  | self symbol cell =>
    refine .inr ⟨rfl, ?_⟩
    rintro args env s ⟨a, op, w, ⟨⟩, found, head⟩
    cases cell.symm.trans found
  | quote cell head | test cell head | lambda cell head | function cell head =>
    refine .inr ⟨rfl, ?_⟩
    rintro args env s ⟨a, op, w, ⟨⟩, found, head'⟩
    cases cell.symm.trans found
    cases head.symm.trans head'
  | _ => exact .inr ⟨rfl, by rintro args env s ⟨a, op, w, ⟨⟩, -⟩⟩

/-- `Course move m ds m'`: moves lead from `m` to `m'`, and `ds` are their labels, the latest
first. -/
inductive Course (move : Moment → List Defined → Moment → Prop) :
    Moment → List Defined → Moment → Prop where
  | refl {m : Moment} : Course move m [] m
  | next {m m₁ m₂ : Moment} {ds ds' : List Defined} (earlier : Course move m ds m₁)
      (last : move m₁ ds' m₂) : Course move m (ds' ++ ds) m₂

namespace Course
variable {move move' : Moment → List Defined → Moment → Prop} {m m₁ m₂ : Moment}
  {ds ds' : List Defined}

theorem single (h : move m ds m₁) : Course move m ds m₁ := by
  have course := Course.refl.next h
  rw [List.append_nil] at course
  exact course

theorem trans (h : Course move m ds m₁) (h' : Course move m₁ ds' m₂) :
    Course move m (ds' ++ ds) m₂ := by
  induction h' with
  | refl => exact h
  | next _ last ih =>
    rw [List.append_assoc]
    exact ih.next last

theorem mono (hmove : ∀ {m ds m'}, move m ds m' → move' m ds m') (h : Course move m ds m₁) :
    Course move' m ds m₁ := by
  induction h with
  | refl => exact .refl
  | next _ last ih => exact ih.next (hmove last)

end Course

/-- Steps lead from a goal that has an answer to its value, by the same definitions whatever waits
for that. -/
theorem Answers.course {g : Goal} {s s' : Store} {v : Value} (h : Answers g s v s') :
    ∃ ds, ∀ w, Course Step ⟨.ask g w, s⟩ ds ⟨.give v w, s'⟩ := by
  induction h with
  | bound found => exact ⟨_, fun w => .single (.bound found)⟩
  | unbound missing => exact ⟨_, fun w => .single (.unbound missing)⟩
  | self symbol cell => exact ⟨_, fun w => .single (.self symbol cell)⟩
  | quote cell head => exact ⟨_, fun w => .single (.quote cell head)⟩
  | testError cell head _ error ih =>
    obtain ⟨ds, test⟩ := ih
    exact ⟨_, fun w => ((Course.single (.test cell head)).trans (test _)).next (.testError error)⟩
  | conditional cell head _ value _ ihTest ihBranch =>
    obtain ⟨ds, test⟩ := ihTest
    obtain ⟨ds', branch⟩ := ihBranch
    exact ⟨_, fun w => (((Course.single (.test cell head)).trans (test _)).next
      (.branch value)).trans (branch w)⟩
  | lambda cell head => exact ⟨_, fun w => .single (.lambda cell head)⟩
  | defun cell head function global =>
    obtain ⟨rfl, -⟩ := Store.closure_eq_iff.1 function
    exact ⟨_, fun w => .single (.defun cell head function global)⟩
  | application cell head _ _ _ ihFunction ihArguments ihResult =>
    obtain ⟨ds₁, function⟩ := ihFunction
    obtain ⟨ds₂, arguments⟩ := ihArguments
    obtain ⟨ds₃, result⟩ := ihResult
    have first := fun w => ((Course.single (.function cell head)).trans
      (function (.function _ _ :: w))).next .arguments
    exact ⟨_, fun w => (((first w).trans (arguments _)).next .application).trans (result w)⟩
  | argsEnd cell => exact ⟨_, fun w => .single (.argsEnd cell)⟩
  | argsError cell _ error ih =>
    obtain ⟨ds, value⟩ := ih
    exact ⟨_, fun w => ((Course.single (.argument cell)).trans (value _)).next (.argsError error)⟩
  | argsNext cell _ noError _ ih ihOthers =>
    obtain ⟨ds, value⟩ := ih
    obtain ⟨ds', others⟩ := ihOthers
    exact ⟨_, fun w => (((Course.single (.argument cell)).trans (value _)).next
      (.argsNext noError)).trans (others w)⟩
  | bodyEnd cell => exact ⟨_, fun w => .single (.bodyEnd cell)⟩
  | bodyNext cell _ _ ih ihOthers =>
    obtain ⟨ds, value⟩ := ih
    obtain ⟨ds', others⟩ := ihOthers
    exact ⟨_, fun w => (((Course.single (.form cell)).trans (value _)).next .bodyNext).trans
      (others w)⟩
  | applyError error => exact ⟨_, fun w => .single (.applyError error)⟩
  | applyArgsError noError error => exact ⟨_, fun w => .single (.applyArgsError noError error)⟩
  | applySubr noError => exact ⟨_, fun w => .single (.applySubr noError)⟩
  | applyClosure noError closure frame _ ih =>
    obtain ⟨ds, body⟩ := ih
    exact ⟨_, fun w => (Course.single (.applyClosure noError closure frame)).trans (body w)⟩
  | applyOther noError noArgsError subr closure =>
    exact ⟨_, fun w => .single (.applyOther noError noArgsError subr closure)⟩

/-- What the rules make of a value for the one that waits for it. -/
def Waiting.Answered (v : Value) (s : Store) (x : Value) (s' : Store) : Waiting → Prop
  | .test args env => (v.isError = true ∧ x = v ∧ s' = s) ∨
      (v.isError = false ∧ Answers (.eval (s.branch v args) env) s x s')
  | .function args env => ∃ values s₁, Answers (.args [] args env) s values s₁ ∧
      Answers (.apply v values) s₁ x s'
  | .arguments f => Answers (.apply f v) s x s'
  | .argument done a env => (v.isError = true ∧ x = v ∧ s' = s) ∨
      (v.isError = false ∧ Answers (.args (v :: done) (s.cdr (.cons a)) env) s x s')
  | .form a env => Answers (.body v (s.cdr (.cons a)) env) s x s'

def AllAnswered (x : Value) (s' : Store) : List Waiting → Value → Store → Prop
  | [], v, s => x = v ∧ s' = s
  | first :: w, v, s => ∃ v₁ s₁, first.Answered v s v₁ s₁ ∧ AllAnswered x s' w v₁ s₁

def Moment.Answered (x : Value) (s' : Store) (m : Moment) : Prop :=
  match m.stage with
  | .idle => False
  | .ask g w => ∃ v s₁, Answers g m.store v s₁ ∧ AllAnswered x s' w v s₁
  | .give v w => AllAnswered x s' w v m.store

/-- A step does not change what the rules make of the rest. -/
theorem Step.answered {m m' : Moment} {ds : List Defined} {x : Value} {s' : Store}
    (h : Step m ds m') (rest : m'.Answered x s') : m.Answered x s' := by
  cases h with
  | bound found => exact ⟨_, _, .bound found, rest⟩
  | unbound missing => exact ⟨_, _, .unbound missing, rest⟩
  | self symbol cell => exact ⟨_, _, .self symbol cell, rest⟩
  | quote cell head => exact ⟨_, _, .quote cell head, rest⟩
  | test cell head =>
    obtain ⟨v, s₂, test, v₁, s₃, ⟨error, rfl, rfl⟩ | ⟨value, branch⟩, rest⟩ := rest
    · exact ⟨_, _, .testError cell head test error, rest⟩
    · exact ⟨_, _, .conditional cell head test value branch, rest⟩
  | testError error => exact ⟨_, _, .inl ⟨error, rfl, rfl⟩, rest⟩
  | branch value =>
    obtain ⟨v, s₁, branch, rest⟩ := rest
    exact ⟨_, _, .inr ⟨value, branch⟩, rest⟩
  | lambda cell head => exact ⟨_, _, .lambda cell head, rest⟩
  | defun cell head function global => exact ⟨_, _, .defun cell head function global, rest⟩
  | function cell head =>
    obtain ⟨f, s₂, function, v, s₃, ⟨values, s₄, arguments, result⟩, rest⟩ := rest
    exact ⟨_, _, .application cell head function arguments result, rest⟩
  | arguments =>
    obtain ⟨values, s₁, arguments, v, s₂, result, rest⟩ := rest
    exact ⟨_, _, ⟨values, s₁, arguments, result⟩, rest⟩
  | application =>
    obtain ⟨v, s₁, result, rest⟩ := rest
    exact ⟨_, _, result, rest⟩
  | argsEnd cell => exact ⟨_, _, .argsEnd cell, rest⟩
  | argument cell =>
    obtain ⟨v, s₂, value, v₁, s₃, ⟨error, rfl, rfl⟩ | ⟨noError, others⟩, rest⟩ := rest
    · exact ⟨_, _, .argsError cell value error, rest⟩
    · exact ⟨_, _, .argsNext cell value noError others, rest⟩
  | argsError error => exact ⟨_, _, .inl ⟨error, rfl, rfl⟩, rest⟩
  | argsNext noError =>
    obtain ⟨v, s₁, others, rest⟩ := rest
    exact ⟨_, _, .inr ⟨noError, others⟩, rest⟩
  | bodyEnd cell => exact ⟨_, _, .bodyEnd cell, rest⟩
  | form cell =>
    obtain ⟨v, s₂, value, v₁, s₃, others, rest⟩ := rest
    exact ⟨_, _, .bodyNext cell value others, rest⟩
  | bodyNext =>
    obtain ⟨v, s₁, others, rest⟩ := rest
    exact ⟨_, _, others, rest⟩
  | applyError error => exact ⟨_, _, .applyError error, rest⟩
  | applyArgsError noError error => exact ⟨_, _, .applyArgsError noError error, rest⟩
  | applySubr noError => exact ⟨_, _, .applySubr noError, rest⟩
  | applyClosure noError closure frame =>
    obtain ⟨v, s₁, body, rest⟩ := rest
    exact ⟨_, _, .applyClosure noError closure frame body, rest⟩
  | applyOther noError noArgsError subr closure =>
    exact ⟨_, _, .applyOther noError noArgsError subr closure, rest⟩

/-- `Performs g s ds v s'`: steps lead from the goal to its value, and `ds` are the definitions that
they carry out, the latest first. -/
def Performs (g : Goal) (s : Store) (ds : List Defined) (v : Value) (s' : Store) : Prop :=
  Course Step ⟨.ask g [], s⟩ ds ⟨.give v [], s'⟩

/-- The rules derive exactly the values to which steps lead. -/
theorem answers_iff_performs {g : Goal} {s s' : Store} {v : Value} :
    Answers g s v s' ↔ ∃ ds, Performs g s ds v s' := by
  constructor
  · intro h
    obtain ⟨ds, course⟩ := h.course
    exact ⟨ds, course []⟩
  · rintro ⟨ds, course⟩
    have back : ∀ {m m' : Moment} {ds : List Defined}, Course Step m ds m' →
        m'.Answered v s' → m.Answered v s' := by
      intro m m' ds course
      induction course with
      | refl => exact id
      | next _ last ih => exact fun rest => ih (last.answered rest)
    obtain ⟨x, t, answers, rfl, rfl⟩ := back course ⟨rfl, rfl⟩
    exact answers

/-- Steps lead to exactly the values that some bounds give. -/
theorem eval_iff_performs {form v : Value} {env : Env} {s s' : Store} :
    (∃ width depth, (Engine.core width depth).eval form env s = .ok v s') ↔
      ∃ ds, Performs (.eval form env) s ds v s' :=
  answers_eval_iff.symm.trans answers_iff_performs

/-- What a session does next: a step of an evaluation, the reading of a line, which may be refused,
or the end of an evaluation. -/
inductive Move (root : Env) : Moment → List Defined → Moment → Prop where
  | step {m m' : Moment} {ds : List Defined} (h : Step m ds m') : Move root m ds m'
  | line {text rest : List Char} {form : Value} {s s' : Store}
      (reading : read root.table text s = .ok (form, rest) s') :
      Move root ⟨.idle, s⟩ [] ⟨.ask (.eval form root) [], s'⟩
  | refused {text : List Char} {stop : Stop} {s s' : Store}
      (reading : read root.table text s = .error stop s') : Move root ⟨.idle, s⟩ [] ⟨.idle, s'⟩
  | answered {v : Value} {s : Store} : Move root ⟨.give v [], s⟩ [] ⟨.idle, s⟩

/-- The moments that come up in a fresh session. -/
def Reached (root : Env) (m : Moment) : Prop :=
  ∃ s ds, Env.newSession Store.empty = .ok root s ∧ Course (Move root) ⟨.idle, s⟩ ds m

/-- A line that is answered is a course of the session, and the definitions on it are those of the
evaluation of the form that is read. -/
theorem course_of_rep {root : Env} {width depth : Nat} {line out : String} {s s' : Store}
    (h : (Engine.core width depth).rep root line s = .ok out s') :
    ∃ form rest s₁ v ds, read root.table line.toList s = .ok (form, rest) s₁ ∧
      Performs (.eval form root) s₁ ds v s' ∧ Course (Move root) ⟨.idle, s⟩ ds ⟨.idle, s'⟩ := by
  obtain ⟨form, rest, s₁, v, reading, evaluation, -⟩ := Engine.rep_eq_ok_iff.1 h
  obtain ⟨ds, steps⟩ := eval_iff_performs.1 ⟨width, depth, evaluation⟩
  refine ⟨form, rest, s₁, v, ds, reading, steps, ?_⟩
  have course : Course (Move root) ⟨.idle, s⟩ _ ⟨.idle, s'⟩ :=
    ((Course.single (.line reading)).trans (Course.mono .step steps)).next .answered
  rw [List.append_nil, List.nil_append] at course
  exact course

end PocketLisp
