import PocketLisp.QuotedText
import PocketLisp.ShortestDecimals
import PocketLisp.ValueText

/-!
# Data of the host

A program that embeds the interpreter hands over data of its own, and holds what it takes out of
values: numbers, texts, lists and pairs of values, procedures and kinds. Only integers in range
become numbers; the refusal of anything else describes what was handed over.
-/
namespace PocketLisp

inductive HostData where
  | none
  | bool (b : Bool)
  | integer (i : Int)
  | float (x : Float)
  | text (s : String)
  | list (items : List HostData)
  | pair (first second : HostData)
  | record (fields : List (String × HostData))
  | value (v : Value)
  | procedure (p : Procedure)
  | kind (k : Kind)

instance : Inhabited HostData := ⟨.none⟩

namespace HostData

/-- Numbers of the host are written positionally from a ten-thousandth up to ten quadrillions. -/
def floatLayout : DecimalLayout := ⟨-4, 16, 2⟩

def kindName (k : Kind) : String :=
  "Tag." ++ k.tag.toUpper

mutual

def describe (s : Store) : HostData → String
  | .none => "None"
  | .bool true => "True"
  | .bool false => "False"
  | .integer i => String.ofList (integerNumeral i)
  | .float x => String.ofList (floatText floatLayout x)
  | .text t => quotedText t
  | .list items => "[" ++ ", ".intercalate (describeItems s items) ++ "]"
  | .pair a b => "(" ++ describe s a ++ ", " ++ describe s b ++ ")"
  | .record fields => "\x7b" ++ ", ".intercalate (describeFields s fields) ++ "\x7d"
  | .value v => s.describe v
  | .procedure _ => "<function>"
  | .kind k => "<" ++ kindName k ++ ": " ++ quotedText k.tag ++ ">"

def describeItems (s : Store) : List HostData → List String
  | [] => []
  | d :: more => describe s d :: describeItems s more

def describeFields (s : Store) : List (String × HostData) → List String
  | [] => []
  | (key, d) :: more => (quotedText key ++ ": " ++ describe s d) :: describeFields s more

end

/-- The text of host data: texts are themselves, and values are written. -/
def toText (s : Store) : HostData → String
  | .text t => t
  | .value v => s.print v
  | .kind k => kindName k
  | d => describe s d

def truthNumber (b : Bool) : Int :=
  if b then 1 else 0

mutual

/-- Whether host data are equal: lists and pairs by their parts, values as values, and truth values
as the numbers zero and one. -/
def equal (s : Store) : HostData → HostData → Bool
  | .none, .none => true
  | .bool a, .bool b => a = b
  | .bool a, .integer j => truthNumber a = j
  | .integer i, .bool b => i = truthNumber b
  | .integer i, .integer j => i = j
  | .float x, .float y => x == y
  | .text a, .text b => a = b
  | .list as, .list bs => equalItems s as bs
  | .pair a b, .pair c d => equal s a c && equal s b d
  | .value v, .value w => s.equal v w
  | .procedure p, .procedure q => p = q
  | .kind j, .kind k => j = k
  | _, _ => false

def equalItems (s : Store) : List HostData → List HostData → Bool
  | [], [] => true
  | a :: as, b :: bs => equal s a b && equalItems s as bs
  | _, _ => false

end

/-- Whether host data can be hashed: lists, records and cells cannot. -/
def hashable : HostData → Run Unit
  | .value v => PocketLisp.hashable v
  | .pair a b => do
    hashable a
    hashable b
  | .list _ => Run.fault (.unhashable "list")
  | .record _ => Run.fault (.unhashable "dict")
  | _ => pure ()

def toNum : HostData → Run Value
  | .integer i => newNum i
  | d => do Run.fault (.misuse (← Run.look (describe · d)) .integer)

def value? : HostData → Option Value
  | .value v => some v
  | _ => .none

def toList (items : List HostData) : Run Value := do
  match items.find? (fun d => d.value?.isNone) with
  | some d => Run.fault (.misuse (← Run.look (describe · d)) .value)
  | .none => Run.make (fun s => s.ofList (items.filterMap value?))

/-- What a value holds: a number, a name or message, the parts of a cell, what a procedure does.
A closure is its own content. -/
def content (s : Store) (v : Value) : HostData :=
  match v with
  | .nil => .none
  | .num _ n => .integer n.val
  | .sym sym => .text sym.name
  | .error _ message => .text message
  | .cons _ => .pair (.value (s.car v)) (.value (s.cdr v))
  | .subr _ p => .procedure p
  | .expr _ => .value v

end HostData

end PocketLisp
