import PocketLisp.FormReader
import PocketLisp.Proofs.EvaluationRules
import Mathlib.Data.Finmap

/-!
# Evaluation without a store

A reference semantics of the language. Its values are trees, and nothing in them is shared or
changes. Symbols are their names. A closure holds its parameters, its body and the local bindings
that it was made under; global names are bound by a finite map, which definitions update.
-/
namespace PocketLisp

inductive Builtin where
  | car
  | cdr
  | cons
  deriving DecidableEq, Repr

inductive PureAtom where
  | nil
  | num (n : Fixnum)
  | sym (name : String)
  | error (message : String)
  | builtin (b : Builtin)
  | closure (params body : Sexp PureAtom) (locals : List (List (String × Sexp PureAtom)))

abbrev PureValue := Sexp PureAtom

/-- The bindings of the calls that are going on, the innermost first. -/
abbrev Locals := List (List (String × PureValue))

abbrev Globals := Finmap fun _ : String => PureValue

namespace PureValue

abbrev nil : PureValue := .atom .nil

abbrev error (message : String) : PureValue := .atom (.error message)

def car : PureValue → PureValue
  | .cons a _ => a
  | .atom _ => nil

def cdr : PureValue → PureValue
  | .cons _ d => d
  | .atom _ => nil

def isError : PureValue → Bool
  | .atom (.error _) => true
  | _ => false

def isNil : PureValue → Bool
  | .atom .nil => true
  | _ => false

end PureValue

/-- How values are written. Functions show only what they are. -/
def pureSpelling : Spelling PureAtom where
  text
    | .nil => "nil".toList
    | .num n => n.numeral
    | .sym name => name.toList
    | .error message => "<error: ".toList ++ message.toList ++ ">".toList
    | .builtin _ => "<subr>".toList
    | .closure .. => "<expr>".toList
  isNil
    | .nil => true
    | _ => false

def Atom.toPure : Atom → PureAtom
  | .nil => .nil
  | .num n => .num n
  | .sym name => .sym name
  | .error message => .error message

def keywordAmong (names : List (String × Keyword)) : PureValue → Option Keyword
  | .atom (.sym name) => names.lookup name
  | _ => none

def keywordOf (op : PureValue) : Option Keyword := keywordAmong keywords op

/-- The value of a name: that of the innermost local binding, or else the global one. -/
def lookup (locals : Locals) (globals : Globals) (name : String) : Option PureValue :=
  (locals.findSome? fun bindings => bindings.lookup name).or (globals.lookup name)

theorem lookup_nil (globals : Globals) (name : String) :
    lookup [] globals name = globals.lookup name := rfl

theorem lookup_cons (bindings : List (String × PureValue)) (locals : Locals) (globals : Globals)
    (name : String) : lookup (bindings :: locals) globals name =
      (bindings.lookup name).or (lookup locals globals name) := by
  rw [lookup, List.findSome?_cons]
  cases bindings.lookup name <;> rfl

def bindingOf : PureValue × PureValue → Option (String × PureValue)
  | (.atom (.sym name), x) => some (name, x)
  | _ => none

def bindParams (params args : PureValue) : List (String × PureValue) :=
  (params.spine.1.zip args.spine.1).filterMap bindingOf

/-- The globals with a definition, if what is defined is a symbol. -/
def define (globals : Globals) (name f : PureValue) : Globals :=
  match name with
  | .atom (.sym name) => globals.insert name f
  | _ => globals

def branchOf (condition args : PureValue) : PureValue :=
  if condition.isNil then args.cdr.cdr.car else args.cdr.car

def Builtin.result (args : PureValue) : Builtin → PureValue
  | .car => args.car.car
  | .cdr => args.car.cdr
  | .cons => .cons args.car args.cdr.car

/-- A value in front of the values of further arguments. An error among these is all there is. -/
def attach (x rest : PureValue) : PureValue :=
  if rest.isError then rest else .cons x rest

inductive PureGoal where
  | eval (form : PureValue) (locals : Locals)
  | args (forms : PureValue) (locals : Locals)
  | body (last forms : PureValue) (locals : Locals)
  | apply (f args : PureValue)

/-- `Evaluates g globals x globals'`: under the given globals the goal `g` has the value `x`, and
then the globals are `globals'`. -/
inductive Evaluates : PureGoal → Globals → PureValue → Globals → Prop where
  | bound {name : String} {locals : Locals} {g : Globals} {x : PureValue}
      (found : lookup locals g name = some x) :
      Evaluates (.eval (.atom (.sym name)) locals) g x g
  | unbound {name : String} {locals : Locals} {g : Globals}
      (missing : lookup locals g name = none) :
      Evaluates (.eval (.atom (.sym name)) locals) g (.error (name ++ " has no value")) g
  | self {a : PureAtom} {locals : Locals} {g : Globals} (symbol : ∀ name, a ≠ .sym name) :
      Evaluates (.eval (.atom a) locals) g (.atom a) g
  | quote {op args : PureValue} {locals : Locals} {g : Globals}
      (head : keywordOf op = some .quote) : Evaluates (.eval (.cons op args) locals) g args.car g
  | testError {op args x : PureValue} {locals : Locals} {g g₁ : Globals}
      (head : keywordOf op = some .conditional) (test : Evaluates (.eval args.car locals) g x g₁)
      (error : x.isError = true) : Evaluates (.eval (.cons op args) locals) g x g₁
  | conditional {op args condition x : PureValue} {locals : Locals} {g g₁ g₂ : Globals}
      (head : keywordOf op = some .conditional)
      (test : Evaluates (.eval args.car locals) g condition g₁) (value : condition.isError = false)
      (branch : Evaluates (.eval (branchOf condition args) locals) g₁ x g₂) :
      Evaluates (.eval (.cons op args) locals) g x g₂
  | lambda {op args : PureValue} {locals : Locals} {g : Globals}
      (head : keywordOf op = some .lambda) : Evaluates (.eval (.cons op args) locals) g
        (.atom (.closure args.car args.cdr locals)) g
  | defun {op args : PureValue} {locals : Locals} {g : Globals}
      (head : keywordOf op = some .defun) : Evaluates (.eval (.cons op args) locals) g args.car
        (define g args.car (.atom (.closure args.cdr.car args.cdr.cdr locals)))
  | application {op args f values x : PureValue} {locals : Locals} {g g₁ g₂ g₃ : Globals}
      (head : keywordOf op = none) (function : Evaluates (.eval op locals) g f g₁)
      (arguments : Evaluates (.args args locals) g₁ values g₂)
      (result : Evaluates (.apply f values) g₂ x g₃) :
      Evaluates (.eval (.cons op args) locals) g x g₃
  | argsEnd {a : PureAtom} {locals : Locals} {g : Globals} :
      Evaluates (.args (.atom a) locals) g .nil g
  | argsError {form rest x : PureValue} {locals : Locals} {g g₁ : Globals}
      (value : Evaluates (.eval form locals) g x g₁) (error : x.isError = true) :
      Evaluates (.args (.cons form rest) locals) g x g₁
  | argsNext {form rest x values : PureValue} {locals : Locals} {g g₁ g₂ : Globals}
      (value : Evaluates (.eval form locals) g x g₁) (noError : x.isError = false)
      (others : Evaluates (.args rest locals) g₁ values g₂) :
      Evaluates (.args (.cons form rest) locals) g (attach x values) g₂
  | bodyEnd {last : PureValue} {a : PureAtom} {locals : Locals} {g : Globals} :
      Evaluates (.body last (.atom a) locals) g last g
  | bodyNext {last form rest x y : PureValue} {locals : Locals} {g g₁ g₂ : Globals}
      (value : Evaluates (.eval form locals) g x g₁)
      (others : Evaluates (.body x rest locals) g₁ y g₂) :
      Evaluates (.body last (.cons form rest) locals) g y g₂
  | applyError {f args : PureValue} {g : Globals} (error : f.isError = true) :
      Evaluates (.apply f args) g f g
  | applyArgsError {f args : PureValue} {g : Globals} (noError : f.isError = false)
      (error : args.isError = true) : Evaluates (.apply f args) g args g
  | applyBuiltin {b : Builtin} {args : PureValue} {g : Globals} (noError : args.isError = false) :
      Evaluates (.apply (.atom (.builtin b)) args) g (b.result args) g
  | applyClosure {params body args x : PureValue} {locals : Locals} {g g₁ : Globals}
      (noError : args.isError = false)
      (run : Evaluates (.body .nil body (bindParams params args :: locals)) g x g₁) :
      Evaluates (.apply (.atom (.closure params body locals)) args) g x g₁
  | applyOther {f args : PureValue} {g : Globals} (noError : f.isError = false)
      (noArgsError : args.isError = false) (builtin : ∀ b, f ≠ .atom (.builtin b))
      (closure : ∀ params body locals, f ≠ .atom (.closure params body locals)) :
      Evaluates (.apply f args) g (.error (f.written pureSpelling ++ " is not function")) g

theorem Evaluates.unique {goal : PureGoal} {g g₁ g₂ : Globals} {x y : PureValue}
    (h : Evaluates goal g x g₁) (h' : Evaluates goal g y g₂) : x = y ∧ g₁ = g₂ := by
  induction h generalizing y g₂ with
  | bound found =>
    cases h' with
    | bound found' => exact ⟨Option.some.inj (found.symm.trans found'), rfl⟩
    | unbound missing => cases found.symm.trans missing
    | self symbol => exact absurd rfl (symbol _)
  | unbound missing =>
    cases h' with
    | bound found => cases found.symm.trans missing
    | unbound _ => exact ⟨rfl, rfl⟩
    | self symbol => exact absurd rfl (symbol _)
  | self symbol =>
    cases h' with
    | self _ => exact ⟨rfl, rfl⟩
    | _ => exact absurd rfl (symbol _)
  | quote head =>
    cases h' with
    | quote _ => exact ⟨rfl, rfl⟩
    | _ => simp_all
  | testError head _ error ih =>
    cases h' with
    | testError _ test' _ => exact ih test'
    | conditional _ test' noError _ =>
      obtain ⟨rfl, -⟩ := ih test'
      cases error.symm.trans noError
    | _ => simp_all
  | conditional head _ noError _ ihTest ihBranch =>
    cases h' with
    | testError _ test' error =>
      obtain ⟨rfl, -⟩ := ihTest test'
      cases error.symm.trans noError
    | conditional _ test' _ branch' =>
      obtain ⟨rfl, rfl⟩ := ihTest test'
      exact ihBranch branch'
    | _ => simp_all
  | lambda head =>
    cases h' with
    | lambda _ => exact ⟨rfl, rfl⟩
    | _ => simp_all
  | defun head =>
    cases h' with
    | defun _ => exact ⟨rfl, rfl⟩
    | _ => simp_all
  | application head _ _ _ ihFunction ihArguments ihResult =>
    cases h' with
    | application _ function' arguments' result' =>
      obtain ⟨rfl, rfl⟩ := ihFunction function'
      obtain ⟨rfl, rfl⟩ := ihArguments arguments'
      exact ihResult result'
    | _ => simp_all
  | argsEnd =>
    cases h'
    exact ⟨rfl, rfl⟩
  | argsError _ error ih =>
    cases h' with
    | argsError value' _ => exact ih value'
    | argsNext value' noError _ =>
      obtain ⟨rfl, -⟩ := ih value'
      cases error.symm.trans noError
  | argsNext _ noError _ ih ihOthers =>
    cases h' with
    | argsError value' error =>
      obtain ⟨rfl, -⟩ := ih value'
      cases error.symm.trans noError
    | argsNext value' _ others' =>
      obtain ⟨rfl, rfl⟩ := ih value'
      obtain ⟨rfl, rfl⟩ := ihOthers others'
      exact ⟨rfl, rfl⟩
  | bodyEnd =>
    cases h'
    exact ⟨rfl, rfl⟩
  | bodyNext _ _ ih ihOthers =>
    cases h' with
    | bodyNext value' others' =>
      obtain ⟨rfl, rfl⟩ := ih value'
      exact ihOthers others'
  | applyError error =>
    cases h' with
    | applyError _ => exact ⟨rfl, rfl⟩
    | applyBuiltin _ => cases error
    | applyClosure _ _ => cases error
    | _ => simp_all
  | applyArgsError noError error =>
    cases h' with
    | applyArgsError _ _ => exact ⟨rfl, rfl⟩
    | _ => simp_all
  | applyBuiltin noError =>
    cases h' with
    | applyError error => cases error
    | applyBuiltin _ => exact ⟨rfl, rfl⟩
    | applyOther _ _ builtin _ => exact absurd rfl (builtin _)
    | applyArgsError _ error => cases error.symm.trans noError
  | applyClosure noError _ ih =>
    cases h' with
    | applyError error => cases error
    | applyClosure _ run' => exact ih run'
    | applyOther _ _ _ closure => exact absurd rfl (closure _ _ _)
    | applyArgsError _ error => cases error.symm.trans noError
  | applyOther noError noArgsError builtin closure =>
    cases h' with
    | applyOther _ _ _ _ => exact ⟨rfl, rfl⟩
    | applyBuiltin _ => exact absurd rfl (builtin _)
    | applyClosure _ _ => exact absurd rfl (closure _ _ _)
    | _ => simp_all

def Globals.ofBindings (bindings : List (String × PureValue)) : Globals :=
  bindings.foldr (fun b g => g.insert b.1 b.2) ∅

theorem Globals.lookup_ofBindings (bindings : List (String × PureValue)) (name : String) :
    (Globals.ofBindings bindings).lookup name = bindings.lookup name := by
  induction bindings with
  | nil => rfl
  | cons b bindings ih =>
    obtain ⟨key, x⟩ := b
    have step : Globals.ofBindings ((key, x) :: bindings) =
        (Globals.ofBindings bindings).insert key x := rfl
    by_cases h : name = key
    · rw [h, step, Finmap.lookup_insert, List.lookup_cons_self]
    · have hbeq : (name == key) = false := by simpa using h
      rw [step, Finmap.lookup_insert_of_ne _ h, ih, List.lookup_cons, hbeq]

def coreBindings : List (String × PureValue) :=
  [("t", .atom (.sym "t")), ("cons", .atom (.builtin .cons)), ("cdr", .atom (.builtin .cdr)),
    ("car", .atom (.builtin .car))]

/-- `Transcribes g lines outs g'`: the first forms of the lines, evaluated one after the other, have
values that are written as the given texts. -/
inductive Transcribes : Globals → List String → List String → Globals → Prop where
  | done {g : Globals} : Transcribes g [] [] g
  | line {g g₁ g₂ : Globals} {line : String} {lines outs names : List String} {d : Datum}
      {rest : List Char} {short : rest.length ≤ line.toList.length} {x : PureValue}
      (reading : readForm line.toList [] line.toList (Nat.le_succ _) = .form names d rest short)
      (value : Evaluates (.eval (d.map Atom.toPure) []) g x g₁)
      (others : Transcribes g₁ lines outs g₂) :
      Transcribes g (line :: lines) (x.written pureSpelling :: outs) g₂

end PocketLisp
