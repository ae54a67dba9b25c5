import PocketLisp.DecimalNumerals

/-!
# Faults

A fault stops a run, unlike an error value, which is a value like any other. Most faults are misuses
of a value by the program that embeds the interpreter.
-/
namespace PocketLisp

inductive Misuse where
  | integer
  | fixnum
  | num
  | text
  | cons
  | subr
  | expr
  | value
  deriving DecidableEq, Repr

def Misuse.reason : Misuse → String
  | .integer => "not an int"
  | .fixnum => "out of 32-bit range"
  | .num => "not a num"
  | .text => "not a symbol or error"
  | .cons => "not a cons"
  | .subr => "not a subr"
  | .expr => "not an expr"
  | .value => "not a lisp value"

def Misuse.message (as : Misuse) (operand : String) : String :=
  operand ++ ": invalid value: " ++ as.reason

inductive Fault where
  /-- A value, given by its description, was used as what it is not. -/
  | misuse (operand : String) (as : Misuse)
  /-- A numeral has more digits than are converted. -/
  | overlong (digits : Nat)
  /-- Something that may change, of the given kind, was to be hashed. -/
  | unhashable (kind : String)
  /-- A binding was to be made in an environment without a frame. -/
  | noFrame
  | missingFile
  /-- A file is not valid UTF-8. -/
  | undecodable
  /-- A text with a null character was to be kept as a history line. -/
  | nullCharacter
  deriving DecidableEq, Repr

def Fault.message? : Fault → Option String
  | .misuse operand as => some (as.message operand)
  | .overlong digits =>
    some ("Exceeds the limit (" ++ naturalNumeral digitLimit ++
      " digits) for integer string conversion: value has " ++ naturalNumeral digits ++
      " digits; use sys.set_int_max_str_digits() to increase the limit")
  | .unhashable kind => some ("unhashable type: '" ++ kind ++ "'")
  | .noFrame => none
  | .missingFile => none
  | .undecodable => none
  | .nullCharacter => some "embedded null character"

/-- Why a run has no value: a fault, or a bound on the run that was too small. -/
inductive Stop where
  | fault (f : Fault)
  | exhausted
  deriving DecidableEq, Repr

end PocketLisp
