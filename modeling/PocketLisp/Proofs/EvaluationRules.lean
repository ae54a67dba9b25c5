import PocketLisp.Proofs.RunEquations
import PocketLisp.Proofs.StoreGrowth

/-!
# The rules of evaluation

Evaluation with the core procedures as a system of rules. A goal is what is to be answered: the
value of a form, the values of argument forms, the value of a body, or an application. The rules
speak about stores alone; bounds do not occur in them. An engine whose bounds suffice gives the
answers that the rules derive, and gives no others.
-/
namespace PocketLisp

inductive Keyword where
  | quote
  | conditional
  | lambda
  | defun
  deriving DecidableEq, Repr

/-- The names of the special forms, in the order in which they are interned. -/
def keywords : List (String × Keyword) :=
  [("quote", .quote), ("if", .conditional), ("lambda", .lambda), ("defun", .defun)]

namespace Store

def keywordAmong (table : Nat) (op : Value) :
    List (String × Keyword) → Store → Option Keyword × Store
  | [], s => (none, s)
  | (name, k) :: more, s =>
    let sym := s.intern table name
    if op = sym.1 then (some k, sym.2) else keywordAmong table op more sym.2

def keyword (s : Store) (table : Nat) (op : Value) : Option Keyword × Store :=
  keywordAmong table op keywords s

theorem addsData_keywordAmong (table : Nat) (op : Value) (names : List (String × Keyword))
    (s : Store) : AddsData s (keywordAmong table op names s).2 := by
  induction names generalizing s with
  | nil => exact .refl s
  | cons entry more ih =>
    simp only [keywordAmong]
    split
    · exact addsData_intern s table entry.1
    · exact (addsData_intern s table entry.1).trans (ih _)

theorem addsData_keyword (s : Store) (table : Nat) (op : Value) :
    AddsData s (s.keyword table op).2 :=
  addsData_keywordAmong table op keywords s

def extend (s : Store) (e : Env) (params args : Value) : Env × Store :=
  let frame := s.zip params args
  let frames := frame.2.cons frame.1 e.frames
  frames.2.newInner frames.1 e

/-- The store in which a key is bound in front of the given bindings of a frame. -/
def bind (s : Store) (frames bindings key value : Value) : Store :=
  let pair := s.cons key value
  let next := pair.2.cons pair.1 bindings
  next.2.setCar frames next.1

/-- What a core procedure does to its arguments. A procedure of the host has no effect. -/
def call (s : Store) (procedure : Procedure) (args : Value) : Value × Store :=
  match procedure with
  | .car => (s.car (s.car args), s)
  | .cdr => (s.cdr (s.car args), s)
  | .cons => s.cons (s.car args) (s.car (s.cdr args))
  | .host _ => (.nil, s)

def branch (s : Store) (condition args : Value) : Value :=
  if condition = .nil then s.car (s.cdr (s.cdr args)) else s.car (s.cdr args)

theorem allocates_extend (s : Store) (e : Env) (params args : Value) :
    Allocates s (s.extend e params args).2 :=
  ((zip_chain s params args).1.trans (allocates_cons _ _ _)).trans (allocates_newInner _ _ e)

theorem allocates_call (s : Store) (procedure : Procedure) (args : Value) :
    Allocates s (s.call procedure args).2 := by
  cases procedure with
  | cons => exact allocates_cons s _ _
  | _ => exact .refl s

theorem print_sym (s : Store) (sym : Symbol) : s.print (.sym sym) = sym.name := by
  have h : s.tree (.sym sym) = .atom (.sym sym) := by
    unfold tree
    cases s.cells.size <;> rfl
  rw [print, h]
  show String.ofList (sym.name.toList ++ []) = sym.name
  rw [List.append_nil, String.ofList_toList]

end Store

theorem Env.extend_apply (e : Env) (params args : Value) (s : Store) :
    e.extend params args s = .ok (s.extend e params args).1 (s.extend e params args).2 := by
  simp only [Env.extend, Run.make_bind_apply, Run.make_apply, Store.extend]

/-- What is to be answered. The values of the arguments so far and the last value of a body so far
are part of the goal. -/
inductive Goal where
  | eval (form : Value) (env : Env)
  | args (done : List Value) (forms : Value) (env : Env)
  | body (last forms : Value) (env : Env)
  | apply (f args : Value)

/-- `Answers g s v s'`: in the store `s` the goal `g` has the value `v`, which leaves `s'`. -/
inductive Answers : Goal → Store → Value → Store → Prop where
  | bound {sym : Symbol} {env : Env} {s : Store} {pair : Value}
      (found : s.findPair? env.frames (.sym sym) = some pair) :
      Answers (.eval (.sym sym) env) s (s.cdr pair) s
  | unbound {sym : Symbol} {env : Env} {s : Store}
      (missing : s.findPair? env.frames (.sym sym) = none) :
      Answers (.eval (.sym sym) env) s (s.error (sym.name ++ " has no value")).1
        (s.error (sym.name ++ " has no value")).2
  | self {form : Value} {env : Env} {s : Store} (symbol : ∀ sym, form ≠ .sym sym)
      (cell : s.cell? form = none) : Answers (.eval form env) s form s
  | quote {a : Nat} {op args : Value} {env : Env} {s s₁ : Store}
      (cell : s.cells[a]? = some ⟨op, args⟩)
      (head : s.keyword env.table op = (some .quote, s₁)) :
      Answers (.eval (.cons a) env) s (s₁.car args) s₁
  | testError {a : Nat} {op args v : Value} {env : Env} {s s₁ s₂ : Store}
      (cell : s.cells[a]? = some ⟨op, args⟩)
      (head : s.keyword env.table op = (some .conditional, s₁))
      (test : Answers (.eval (s₁.car args) env) s₁ v s₂) (error : v.isError = true) :
      Answers (.eval (.cons a) env) s v s₂
  | conditional {a : Nat} {op args condition v : Value} {env : Env} {s s₁ s₂ s₃ : Store}
      (cell : s.cells[a]? = some ⟨op, args⟩)
      (head : s.keyword env.table op = (some .conditional, s₁))
      (test : Answers (.eval (s₁.car args) env) s₁ condition s₂)
      (value : condition.isError = false)
      (branch : Answers (.eval (s₂.branch condition args) env) s₂ v s₃) :
      Answers (.eval (.cons a) env) s v s₃
  | lambda {a : Nat} {op args : Value} {env : Env} {s s₁ : Store}
      (cell : s.cells[a]? = some ⟨op, args⟩)
      (head : s.keyword env.table op = (some .lambda, s₁)) :
      Answers (.eval (.cons a) env) s (s₁.closure (s₁.car args) (s₁.cdr args) env).1
        (s₁.closure (s₁.car args) (s₁.cdr args) env).2
  | defun {a : Nat} {op args f : Value} {env : Env} {s s₁ s₂ : Store} {frame : Cell}
      (cell : s.cells[a]? = some ⟨op, args⟩)
      (head : s.keyword env.table op = (some .defun, s₁))
      (function : s₁.closure (s₁.car (s₁.cdr args)) (s₁.cdr (s₁.cdr args)) env = (f, s₂))
      (global : s₂.cell? env.globalFrames = some frame) :
      Answers (.eval (.cons a) env) s (s₁.car args)
        (s₂.bind env.globalFrames frame.car (s₁.car args) f)
  | application {a : Nat} {op args f values v : Value} {env : Env} {s s₁ s₂ s₃ s₄ : Store}
      (cell : s.cells[a]? = some ⟨op, args⟩)
      (head : s.keyword env.table op = (none, s₁))
      (function : Answers (.eval op env) s₁ f s₂)
      (arguments : Answers (.args [] args env) s₂ values s₃)
      (result : Answers (.apply f values) s₃ v s₄) :
      Answers (.eval (.cons a) env) s v s₄
  | argsEnd {done : List Value} {forms : Value} {env : Env} {s : Store}
      (cell : s.cell? forms = none) :
      Answers (.args done forms env) s (s.ofList done.reverse).1 (s.ofList done.reverse).2
  | argsError {done : List Value} {a : Nat} {form rest v : Value} {env : Env} {s s₁ : Store}
      (cell : s.cells[a]? = some ⟨form, rest⟩) (value : Answers (.eval form env) s v s₁)
      (error : v.isError = true) :
      Answers (.args done (.cons a) env) s v s₁
  | argsNext {done : List Value} {a : Nat} {form rest v values : Value} {env : Env}
      {s s₁ s₂ : Store} (cell : s.cells[a]? = some ⟨form, rest⟩)
      (value : Answers (.eval form env) s v s₁) (noError : v.isError = false)
      (others : Answers (.args (v :: done) (s₁.cdr (.cons a)) env) s₁ values s₂) :
      Answers (.args done (.cons a) env) s values s₂
  | bodyEnd {last forms : Value} {env : Env} {s : Store} (cell : s.cell? forms = none) :
      Answers (.body last forms env) s last s
  | bodyNext {last form rest v w : Value} {a : Nat} {env : Env} {s s₁ s₂ : Store}
      (cell : s.cells[a]? = some ⟨form, rest⟩) (value : Answers (.eval form env) s v s₁)
      (others : Answers (.body v (s₁.cdr (.cons a)) env) s₁ w s₂) :
      Answers (.body last (.cons a) env) s w s₂
  | applyError {f args : Value} {s : Store} (error : f.isError = true) :
      Answers (.apply f args) s f s
  | applyArgsError {f args : Value} {s : Store} (noError : f.isError = false)
      (error : args.isError = true) : Answers (.apply f args) s args s
  | applySubr {serial : Nat} {procedure : Procedure} {args : Value} {s : Store}
      (noError : args.isError = false) :
      Answers (.apply (.subr serial procedure) args) s (s.call procedure args).1
        (s.call procedure args).2
  | applyClosure {k : Nat} {c : Closure} {args v : Value} {env : Env} {s s₁ s₂ : Store}
      (noError : args.isError = false) (closure : s.closures[k]? = some c)
      (frame : s.extend c.env c.params args = (env, s₁))
      (body : Answers (.body .nil c.body env) s₁ v s₂) :
      Answers (.apply (.expr k) args) s v s₂
  | applyOther {f args : Value} {s : Store} (noError : f.isError = false)
      (noArgsError : args.isError = false) (subr : ∀ serial procedure, f ≠ .subr serial procedure)
      (closure : ∀ k, f ≠ .expr k) :
      Answers (.apply f args) s (s.error (s.print f ++ " is not function")).1
        (s.error (s.print f ++ " is not function")).2

end PocketLisp
