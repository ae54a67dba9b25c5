import PocketLisp.Sexp
import PocketLisp.Fixnums

/-!
# What a token stands for

A token that has the shape of a numeral and fits a fixnum is that number, the token `nil` is the
empty list, and every other token is a symbol of that name. A numeral with too many digits is not
converted at all.
-/
namespace PocketLisp

/-- The atoms of data that can be read. An error is the outcome of a failed reading. -/
inductive Atom where
  | nil
  | num (n : Fixnum)
  | sym (name : String)
  | error (message : String)
  deriving DecidableEq, Repr

abbrev Datum := Sexp Atom

/-- The atom that a name stands for: `nil` names the empty list. -/
def Atom.named (name : String) : Atom :=
  if name = "nil" then .nil else .sym name

def Atom.names : Atom → List String
  | .sym name => [name]
  | _ => []

/-- The atom of a token, or the number of digits of a numeral beyond the limit. -/
def classify (token : List Char) : Except Nat Atom :=
  if isNumeral token then
    if digitLimit < (unsigned token).length then .error (unsigned token).length
    else match Fixnum.ofInt? (numeralValue token) with
      | some n => .ok (.num n)
      | none => .ok (.named (String.ofList token))
  else .ok (.named (String.ofList token))

end PocketLisp
