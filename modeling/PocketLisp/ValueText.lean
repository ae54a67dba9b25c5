import PocketLisp.CellStore

/-!
# The written form of values

Lists are written in parentheses, with a dot before an end other than `nil`. Procedures and
functions show only what they are.
-/
namespace PocketLisp

def atomText : Value → List Char
  | .nil => "nil".toList
  | .num _ n => n.numeral
  | .sym sym => sym.name.toList
  | .error _ message => "<error: ".toList ++ message.toList ++ ">".toList
  | .cons _ => "(...)".toList
  | .subr _ _ => "<subr>".toList
  | .expr _ => "<expr>".toList

/-- The spelling of values; `nil` ends a list without being written. -/
def valueSpelling : Spelling Value where
  text := atomText
  isNil v := v = .nil

inductive Kind where
  | nil
  | num
  | sym
  | error
  | cons
  | subr
  | expr
  deriving DecidableEq, Repr

def Value.kind : Value → Kind
  | .nil => .nil
  | .num .. => .num
  | .sym _ => .sym
  | .error .. => .error
  | .cons _ => .cons
  | .subr .. => .subr
  | .expr _ => .expr

def Kind.tag : Kind → String
  | .nil => "nil"
  | .num => "num"
  | .sym => "sym"
  | .error => "error"
  | .cons => "cons"
  | .subr => "subr"
  | .expr => "expr"

def Kind.label : Kind → String
  | .nil => "LispNil"
  | .num => "LispNum"
  | .sym => "LispSymbol"
  | .error => "LispError"
  | .cons => "LispCons"
  | .subr => "LispSubr"
  | .expr => "LispExpr"

namespace Store

def print (s : Store) (v : Value) : String :=
  (s.tree v).written valueSpelling

def describe (s : Store) (v : Value) : String :=
  "<" ++ v.kind.label ++ " " ++ s.print v ++ ">"

def describeEnv (s : Store) (e : Env) : String :=
  "environment: " ++ s.print e.frames

end Store

/-- Whether two values that name no cells are equal: numbers and errors by what they hold, all else
by identity. -/
def equalAtoms : Value → Value → Bool
  | .num _ m, .num _ n => m = n
  | .error _ m, .error _ n => m = n
  | v, w => v = w

/-- Whether two values are equal: cells by their parts, all else as atoms. -/
def Store.equal (s : Store) (v w : Value) : Bool :=
  (s.tree v).agree equalAtoms (s.tree w)

def asNum : Value → Run Fixnum
  | .num _ n => pure n
  | v => do Run.fault (.misuse (← Run.look (·.describe v)) .num)

def asText : Value → Run String
  | .sym sym => pure sym.name
  | .error _ message => pure message
  | v => do Run.fault (.misuse (← Run.look (·.describe v)) .text)

def asCell (v : Value) : Run Cell := do
  match ← Run.look (·.cell? v) with
  | some c => pure c
  | none => Run.fault (.misuse (← Run.look (·.describe v)) .cons)

def asProcedure : Value → Run Procedure
  | .subr _ p => pure p
  | v => do Run.fault (.misuse (← Run.look (·.describe v)) .subr)

def asClosure (v : Value) : Run Closure := do
  match ← Run.look (·.closure? v) with
  | some c => pure c
  | none => Run.fault (.misuse (← Run.look (·.describe v)) .expr)

def newNum (i : Int) : Run Value :=
  match Fixnum.ofInt? i with
  | some n => Run.make (fun s => s.num n)
  | none => Run.fault (.misuse (String.ofList (integerNumeral i)) .fixnum)

def hashable : Value → Run Unit
  | .cons a => Run.fault (.unhashable (Value.cons a).kind.label)
  | _ => pure ()

end PocketLisp
