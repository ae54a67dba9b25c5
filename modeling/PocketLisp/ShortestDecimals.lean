import PocketLisp.DecimalNumerals

/-!
# Shortest decimals

A finite floating-point number is `m * 2 ^ q`. Every real number in an interval around it rounds to
it, the ends included if `m` is even. Its shortest decimal is the point of the coarsest decimal grid
that lies in that interval; of two such points the nearer is taken, of two equally near the even
one. All comparisons are exact: numbers are brought to a common denominator first.
-/
namespace PocketLisp

/-- The decimal `digits * 10 ^ exponent`. -/
structure Decimal where
  digits : Nat
  exponent : Int
  deriving DecidableEq, Repr

/-- A positive number, with the ends of its rounding interval, over one common denominator. -/
structure RoundingInterval where
  low : Nat
  value : Nat
  high : Nat
  denominator : Nat
  closed : Bool

namespace RoundingInterval

/-- The interval of `m * 2 ^ q`. The gap below a power of two is half as wide, unless the exponent
is the least one. -/
def ofBinary (m : Nat) (q : Int) (narrowBelow : Bool) : RoundingInterval :=
  let unit := Nat.pow 2 q.toNat
  { low := if narrowBelow then (4 * m - 1) * unit else (4 * m - 2) * unit
    value := 4 * m * unit
    high := (4 * m + 2) * unit
    denominator := 4 * Nat.pow 2 (-q).toNat
    closed := m % 2 = 0 }

/-- The interval in units of `10 ^ e`. -/
def scale (r : RoundingInterval) (e : Int) : RoundingInterval :=
  let up := Nat.pow 10 (-e).toNat
  { low := r.low * up
    value := r.value * up
    high := r.high * up
    denominator := r.denominator * Nat.pow 10 e.toNat
    closed := r.closed }

def contains (r : RoundingInterval) (n : Nat) : Bool :=
  let x := n * r.denominator
  if r.closed then r.low ≤ x && x ≤ r.high else r.low < x && x < r.high

def integer? (r : RoundingInterval) : Option Nat :=
  let below := r.value / r.denominator
  let rest := r.value % r.denominator
  match r.contains below, r.contains (below + 1) with
  | false, false => none
  | true, false => some below
  | false, true => some (below + 1)
  | true, true =>
    if 2 * rest < r.denominator then some below
    else if r.denominator < 2 * rest then some (below + 1)
    else if below % 2 = 0 then some below
    else some (below + 1)

/-- The first decimal in the interval on the grids of `10 ^ e`, `10 ^ (e - 1)` and so on. -/
def decimalFrom (r : RoundingInterval) : Nat → Int → Decimal
  | 0, e => ⟨(r.scale e).value / (r.scale e).denominator, e⟩
  | more + 1, e => match (r.scale e).integer? with
    | some n => ⟨n, e⟩
    | none => decimalFrom r more (e - 1)

end RoundingInterval

/-- The shortest decimal of `m * 2 ^ q`. No double reaches `10 ^ 309`, and 17 digits always tell
doubles apart, so the coarsest grid is found between these. -/
def shortestDecimal (m : Nat) (q : Int) (narrowBelow : Bool) : Decimal :=
  (RoundingInterval.ofBinary m q narrowBelow).decimalFrom 650 309

/-- The layout of a decimal: the exponents, as in `d.ddd * 10 ^ exponent`, that are written
positionally, and the least number of digits of an exponent that is written. -/
structure DecimalLayout where
  positionalFrom : Int
  positionalBelow : Int
  exponentDigits : Nat

def paddedNumeral (width n : Nat) : List Char :=
  let digits := naturalDigits n
  List.replicate (width - digits.length) '0' ++ digits

/-- The text of a positive decimal. Positional notation always has a digit after the point. -/
def Decimal.text (layout : DecimalLayout) (d : Decimal) : List Char :=
  let digits := naturalDigits d.digits
  let count := digits.length
  let exponent := d.exponent + (count : Int) - 1
  if layout.positionalFrom ≤ exponent && exponent < layout.positionalBelow then
    if exponent < 0 then
      '0' :: '.' :: (List.replicate (-exponent - 1).toNat '0' ++ digits)
    else
      let whole := exponent.toNat + 1
      let fraction := digits.drop whole
      digits.take whole ++ List.replicate (whole - count) '0' ++
        '.' :: (if fraction.isEmpty then ['0'] else fraction)
  else
    let fraction := digits.drop 1
    digits.take 1 ++ (if fraction.isEmpty then [] else '.' :: fraction) ++
      'e' :: (if exponent < 0 then '-' else '+') ::
        paddedNumeral layout.exponentDigits exponent.natAbs

def floatText (layout : DecimalLayout) (x : Float) : List Char :=
  let bits : Nat := x.toBits.toNat
  let biased : Nat := bits / Nat.pow 2 52 % Nat.pow 2 11
  let fraction : Nat := bits % Nat.pow 2 52
  let magnitude :=
    if biased = 2047 then (if fraction = 0 then "inf".toList else "nan".toList)
    else if biased = 0 && fraction = 0 then "0.0".toList
    else if biased = 0 then (shortestDecimal fraction (-1074) false).text layout
    else (shortestDecimal (Nat.pow 2 52 + fraction) (Int.ofNat biased - 1075)
      (fraction = 0 && 1 < biased)).text layout
  if bits / Nat.pow 2 63 = 1 && magnitude ≠ "nan".toList then '-' :: magnitude else magnitude

end PocketLisp
