import PocketLisp.Environments

/-!
# Evaluation

A request asks for the value of a form, for an application, or for what a procedure does to its
arguments. One step answers a request by means of the answers to further requests; a run answers a
request with a bound on how deep requests may nest, and a bound on the length of the argument lists
and bodies that are walked. Argument lists and bodies are walked as they are in the store at each
moment: what follows an argument is looked up after the argument has been evaluated.
-/
namespace PocketLisp

inductive Request where
  | eval (form : Value) (env : Env)
  | apply (f args : Value)
  | call (procedure : Procedure) (args : Value)
  deriving DecidableEq, Repr

/-- The procedures of a host: what each does to its arguments, given a way to answer requests. -/
abbrev Host := (Request → Run Value) → String → Value → Run Value

def Value.isError : Value → Bool
  | .error .. => true
  | _ => false

/-- The values of the forms of a list, in order. The first error ends the walk and is its
outcome; otherwise it is a new list of the values, which `done` holds so far, latest first. -/
def evalList (eval : Value → Run Value) : Nat → List Value → Value → Run Value
  | 0, _, _ => throw .exhausted
  | width + 1, done, forms => do
    match ← Run.look (·.cell? forms) with
    | none => Run.make (fun s => s.ofList done.reverse)
    | some c =>
      let v ← eval c.car
      if v.isError then pure v
      else
        let rest ← Run.look (·.cdr forms)
        evalList eval width (v :: done) rest

/-- Evaluates the forms of a body in order. The outcome is the last value, at first `last`. -/
def evalBody (eval : Value → Run Value) : Nat → Value → Value → Run Value
  | 0, _, _ => throw .exhausted
  | width + 1, last, forms => do
    match ← Run.look (·.cell? forms) with
    | none => pure last
    | some c =>
      let v ← eval c.car
      let rest ← Run.look (·.cdr forms)
      evalBody eval width v rest

section step

variable (host : Host) (width : Nat) (answer : Request → Run Value)

def callStep (procedure : Procedure) (args : Value) : Run Value :=
  match procedure with
  | .car => Run.look (fun s => s.car (s.car args))
  | .cdr => Run.look (fun s => s.cdr (s.car args))
  | .cons => Run.make (fun s => s.cons (s.car args) (s.car (s.cdr args)))
  | .host name => host answer name args

/-- Applies a value to a list of arguments. Errors pass through. -/
def applyStep (f args : Value) : Run Value :=
  if f.isError then pure f
  else if args.isError then pure args
  else match f with
    | .subr _ procedure => callStep host answer procedure args
    | .expr _ => do
      let c ← asClosure f
      let env ← c.env.extend c.params args
      evalBody (fun form => answer (.eval form env)) width .nil c.body
    | _ => do
      let text ← Run.look (·.print f)
      Run.make (fun s => s.error (text ++ " is not function"))

/-- The value of a conditional: one branch is evaluated, the third form if the condition is
`nil`. An error in the condition is the outcome. -/
def evalIf (args : Value) (env : Env) : Run Value := do
  let test ← Run.look (·.car args)
  let condition ← answer (.eval test env)
  if condition.isError then pure condition
  else do
    let branch ← Run.look (fun s =>
      if condition = .nil then s.car (s.cdr (s.cdr args)) else s.car (s.cdr args))
    answer (.eval branch env)

def newClosure (args : Value) (env : Env) : Run Value := do
  let params ← Run.look (·.car args)
  let body ← Run.look (·.cdr args)
  Run.make (fun s => s.closure params body env)

/-- Defines a function in the global frame; the outcome is its name. -/
def evalDefun (args : Value) (env : Env) : Run Value := do
  let name ← Run.look (·.car args)
  let rest ← Run.look (·.cdr args)
  let f ← newClosure rest env
  env.global.set name f
  pure name

def evalApplication (op args : Value) (env : Env) : Run Value := do
  let f ← answer (.eval op env)
  let values ← evalList (fun form => answer (.eval form env)) width [] args
  applyStep host width answer f values

/-- The value of a form with the given head. The names of the special forms are interned one after
the other up to the one that is the head. -/
def evalCell (op args : Value) (env : Env) : Run Value := do
  let quoteSymbol ← Run.make (fun s => s.intern env.table "quote")
  if op = quoteSymbol then Run.look (·.car args)
  else do
    let ifSymbol ← Run.make (fun s => s.intern env.table "if")
    if op = ifSymbol then evalIf answer args env
    else do
      let lambdaSymbol ← Run.make (fun s => s.intern env.table "lambda")
      if op = lambdaSymbol then newClosure args env
      else do
        let defunSymbol ← Run.make (fun s => s.intern env.table "defun")
        if op = defunSymbol then evalDefun args env
        else evalApplication host width answer op args env

/-- The value of a form: symbols are looked up, lists are evaluated, and all else is its own
value. -/
def evalStep (form : Value) (env : Env) : Run Value := do
  match form with
  | .sym _ => env.get form
  | _ => match ← Run.look (·.cell? form) with
    | some c => evalCell host width answer c.car c.cdr env
    | none => pure form

/-- Answers a request by means of the answers to further ones. -/
def step : Request → Run Value
  | .eval form env => evalStep host width answer form env
  | .apply f args => applyStep host width answer f args
  | .call procedure args => callStep host answer procedure args

end step

/-- Answers a request with at most `depth` requests inside one another. -/
def run (host : Host) (width : Nat) : Nat → Request → Run Value
  | 0, _ => throw .exhausted
  | depth + 1, request => step host width (run host width depth) request

theorem run_succ (host : Host) (width depth : Nat) (request : Request) :
    run host width (depth + 1) request = step host width (run host width depth) request := rfl

/-- What evaluation is given from outside: the procedures of the host, and the bounds of a run. -/
structure Engine where
  host : Host
  width : Nat
  depth : Nat

namespace Engine

def answer (e : Engine) (request : Request) : Run Value :=
  run e.host e.width e.depth request

def eval (e : Engine) (form : Value) (env : Env) : Run Value :=
  e.answer (.eval form env)

def apply (e : Engine) (f args : Value) : Run Value :=
  e.answer (.apply f args)

def call (e : Engine) (procedure : Procedure) (args : Value) : Run Value :=
  e.answer (.call procedure args)

def evalForms (e : Engine) (forms : Value) (env : Env) : Run Value :=
  evalList (fun form => e.eval form env) e.width [] forms

def evalSequence (e : Engine) (forms : Value) (env : Env) : Run Value :=
  evalBody (fun form => e.eval form env) e.width .nil forms

end Engine

def Engine.core (width depth : Nat) : Engine where
  host _ _ _ := pure .nil
  width := width
  depth := depth

end PocketLisp
