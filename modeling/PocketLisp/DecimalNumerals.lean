/-!
# Decimal numerals

The value of a digit string, and the digits of a natural number without leading zeros. A numeral
may carry one sign.
-/
namespace PocketLisp

def digitValue (c : Char) : Nat :=
  c.toNat - '0'.toNat

def digitChar (n : Nat) : Char :=
  Char.ofNat ('0'.toNat + n)

def naturalValue (digits : List Char) : Nat :=
  digits.foldl (fun n c => 10 * n + digitValue c) 0

/-- The digits of `n`, most significant first, in front of `rest`. -/
def naturalDigitsOnto (n : Nat) (rest : List Char) : List Char :=
  if _h : n < 10 then digitChar n :: rest
  else naturalDigitsOnto (n / 10) (digitChar (n % 10) :: rest)
termination_by n
decreasing_by omega

def naturalDigits (n : Nat) : List Char :=
  naturalDigitsOnto n []

theorem digitValue_digitChar {n : Nat} (h : n < 10) : digitValue (digitChar n) = n :=
  (by decide : ∀ n, n < 10 → digitValue (digitChar n) = n) n h

theorem isDigit_digitChar {n : Nat} (h : n < 10) : (digitChar n).isDigit = true :=
  (by decide : ∀ n, n < 10 → (digitChar n).isDigit = true) n h

private theorem naturalValue_naturalDigitsOnto (n : Nat) (rest : List Char) :
    naturalValue (naturalDigitsOnto n rest) =
      rest.foldl (fun n c => 10 * n + digitValue c) n := by
  rw [naturalDigitsOnto]
  split
  · next h => simp [naturalValue, digitValue_digitChar h]
  · rw [naturalValue_naturalDigitsOnto]
    rw [List.foldl_cons, digitValue_digitChar (by omega), Nat.div_add_mod]
termination_by n
decreasing_by omega

theorem naturalValue_naturalDigits (n : Nat) : naturalValue (naturalDigits n) = n :=
  naturalValue_naturalDigitsOnto n []

def naturalNumeral (n : Nat) : String :=
  String.ofList (naturalDigits n)

def integerNumeral (i : Int) : List Char :=
  if i < 0 then '-' :: naturalDigits i.natAbs else naturalDigits i.natAbs

def unsigned : List Char → List Char
  | '+' :: digits => digits
  | '-' :: digits => digits
  | digits => digits

/-- Whether a token is a numeral: at most one sign, then one digit or more. -/
def isNumeral (token : List Char) : Bool :=
  !(unsigned token).isEmpty && (unsigned token).all Char.isDigit

def numeralValue (token : List Char) : Int :=
  if token.head? = some '-' then -(naturalValue (unsigned token) : Int)
  else naturalValue (unsigned token)

/-- The most digits of a numeral that is converted. -/
def digitLimit : Nat := 4300

end PocketLisp
