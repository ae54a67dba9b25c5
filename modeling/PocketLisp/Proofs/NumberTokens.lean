import PocketLisp.Proofs.PrintedForms
import Mathlib.Data.List.Induction
import Mathlib.Data.Nat.Digits.Defs

/-!
# Tokens of numbers

Which tokens are numbers, and which numbers they are. A numeral is at most one sign and then decimal
digits, and its value is that of the digits by places. A numeral in range is that number, and any
other token is the symbol of its name. So the tokens of a number are a sign that fits, any number of
zeros, and the digits with which the number is written.
-/
namespace PocketLisp

section digits

variable {digits : List Char} {c : Char}

theorem digit_bounds (h : c.isDigit = true) : '0'.toNat ≤ c.toNat ∧ c.toNat < '0'.toNat + 10 := by
  obtain ⟨low, high⟩ := Char.isDigit_iff_toNat.1 h
  exact ⟨low, Nat.lt_succ_of_le high⟩

theorem digitValue_lt (h : c.isDigit = true) : digitValue c < 10 := by
  have bounds := digit_bounds h
  rw [digitValue]
  omega

theorem digitChar_digitValue (h : c.isDigit = true) : digitChar (digitValue c) = c := by
  rw [digitChar, digitValue, Nat.add_sub_cancel' (digit_bounds h).1, Char.ofNat_toNat]

theorem naturalValue_concat (digits : List Char) (c : Char) :
    naturalValue (digits ++ [c]) = 10 * naturalValue digits + digitValue c := by
  simp [naturalValue]

/-- The value of a digit string is its value by places, where the last place is that of the
units. -/
theorem naturalValue_eq_ofDigits (digits : List Char) :
    naturalValue digits = Nat.ofDigits 10 (digits.map digitValue).reverse := by
  rw [Nat.ofDigits_eq_foldr, List.foldr_reverse, List.foldl_map]
  simp [naturalValue, Nat.add_comm]

theorem naturalValue_padded (zeros : Nat) (digits : List Char) :
    naturalValue (List.replicate zeros '0' ++ digits) = naturalValue digits := by
  induction zeros with
  | zero => rfl
  | succ zeros ih => exact ih

theorem naturalDigits_digitValue (h : c.isDigit = true) : naturalDigits (digitValue c) = [c] := by
  rw [naturalDigits_of_lt (digitValue_lt h), digitChar_digitValue h]

theorem naturalDigits_concat {n : Nat} (positive : n ≠ 0) (h : c.isDigit = true) :
    naturalDigits (10 * n + digitValue c) = naturalDigits n ++ [c] := by
  have small := digitValue_lt h
  have quotient : (10 * n + digitValue c) / 10 = n := by omega
  have remainder : (10 * n + digitValue c) % 10 = digitValue c := by omega
  rw [naturalDigits_of_le (by omega), quotient, remainder, digitChar_digitValue h]

/-- A digit string is the digits of its value with zeros in front. -/
theorem exists_padding (nonempty : digits ≠ []) (decimal : ∀ c ∈ digits, c.isDigit = true) :
    ∃ zeros, digits = List.replicate zeros '0' ++ naturalDigits (naturalValue digits) := by
  -- By induction from the right, for that is how the digits of a number are made.
  induction digits using List.reverseRecOn with
  | nil => exact absurd rfl nonempty
  | append_singleton digits c ih =>
    obtain ⟨others, last⟩ := List.forall_mem_append.1 decimal
    have isDigit := last c (by simp)
    rw [naturalValue_concat]
    by_cases empty : digits = []
    · subst empty
      refine ⟨0, ?_⟩
      rw [show naturalValue [] = 0 from rfl, Nat.mul_zero, Nat.zero_add,
        naturalDigits_digitValue isDigit]
      rfl
    · obtain ⟨zeros, padded⟩ := ih empty others
      by_cases value : naturalValue digits = 0
      · -- The digits so far are zeros, and the last one of them counts as padding now.
        have allZeros : digits = List.replicate (zeros + 1) '0' := by
          rw [value, naturalDigits_of_lt (by decide)] at padded
          exact padded.trans List.replicate_succ'.symm
        refine ⟨zeros + 1, ?_⟩
        rw [value, Nat.mul_zero, Nat.zero_add, naturalDigits_digitValue isDigit, ← allZeros]
      · refine ⟨zeros, ?_⟩
        rw [naturalDigits_concat value isDigit, ← List.append_assoc, ← padded]

end digits

inductive Sign where
  | none
  | plus
  | minus
  deriving DecidableEq, Repr

namespace Sign

def text : Sign → List Char
  | none => []
  | plus => ['+']
  | minus => ['-']

def apply : Sign → Nat → Int
  | none, n => n
  | plus, n => n
  | minus, n => -n

theorem natAbs_apply (sign : Sign) (n : Nat) : (sign.apply n).natAbs = n := by
  cases sign <;> simp [apply]

end Sign

/-- `Numeral token i`: the token is at most one sign and then one digit or more, and `i` is the
value of the digits by places, with the sign. -/
inductive Numeral : List Char → Int → Prop where
  | mk (sign : Sign) {digits : List Char} (nonempty : digits ≠ [])
      (decimal : ∀ c ∈ digits, c.isDigit = true) :
      Numeral (sign.text ++ digits) (sign.apply (Nat.ofDigits 10 (digits.map digitValue).reverse))

section numerals

variable {token digits : List Char} {i : Int}

theorem exists_sign (token : List Char) :
    ∃ (sign : Sign) (digits : List Char), token = sign.text ++ digits ∧
      unsigned token = digits := by
  unfold unsigned
  split
  · exact ⟨.plus, _, rfl, rfl⟩
  · exact ⟨.minus, _, rfl, rfl⟩
  · exact ⟨.none, _, rfl, rfl⟩

theorem unsigned_sign (sign : Sign) (decimal : ∀ c ∈ digits, c.isDigit = true) :
    unsigned (sign.text ++ digits) = digits := by
  cases sign with
  | none => exact (unsigned_eq_self decimal).1
  | plus => rfl
  | minus => rfl

theorem numeralValue_sign (sign : Sign) (decimal : ∀ c ∈ digits, c.isDigit = true) :
    numeralValue (sign.text ++ digits) = sign.apply (naturalValue digits) := by
  rw [numeralValue, unsigned_sign sign decimal]
  cases sign with
  | none => exact if_neg (unsigned_eq_self decimal).2
  | plus => exact if_neg (by simp [Sign.text])
  | minus => exact if_pos rfl

/-- The numerals are what has the shape of one, with the value that is computed. -/
theorem numeral_iff : Numeral token i ↔ isNumeral token = true ∧ numeralValue token = i := by
  constructor
  · rintro ⟨sign, nonempty, decimal⟩
    rw [isNumeral, unsigned_sign sign decimal, numeralValue_sign sign decimal,
      naturalValue_eq_ofDigits]
    exact ⟨by simpa [nonempty] using decimal, rfl⟩
  · rintro ⟨shape, rfl⟩
    obtain ⟨sign, digits, rfl, same⟩ := exists_sign token
    rw [isNumeral, same] at shape
    obtain ⟨nonempty, decimal⟩ : digits ≠ [] ∧ ∀ c ∈ digits, c.isDigit = true := by
      simpa using shape
    rw [numeralValue_sign sign decimal, naturalValue_eq_ofDigits]
    exact .mk sign nonempty decimal

theorem Numeral.countP (h : Numeral token i) :
    token.countP Char.isDigit = (unsigned token).length := by
  obtain ⟨sign, nonempty, decimal⟩ := h
  have noDigit : sign.text.countP Char.isDigit = 0 := by cases sign <;> rfl
  rw [unsigned_sign sign decimal, List.countP_append, noDigit, List.countP_eq_length.2 decimal,
    Nat.zero_add]

/-- The numerals of an integer are a sign that fits, any number of zeros, and the digits of its
absolute value. Zero has them with either sign. -/
theorem numeral_iff_padded : Numeral token i ↔ ∃ (sign : Sign) (zeros : Nat),
    sign.apply i.natAbs = i ∧
      token = sign.text ++ (List.replicate zeros '0' ++ naturalDigits i.natAbs) := by
  constructor
  · rintro ⟨sign, nonempty, decimal⟩
    obtain ⟨zeros, padded⟩ := exists_padding nonempty decimal
    rw [← naturalValue_eq_ofDigits, sign.natAbs_apply]
    exact ⟨sign, zeros, rfl, congrArg _ padded⟩
  · rintro ⟨sign, zeros, fits, rfl⟩
    obtain ⟨nonempty, decimal⟩ := naturalDigits_spec i.natAbs
    have zero : ∀ c ∈ List.replicate zeros '0', c.isDigit = true := by
      intro c hc
      rw [List.eq_of_mem_replicate hc]
      rfl
    have padded := Numeral.mk sign (List.append_ne_nil_of_right_ne_nil _ nonempty)
      (List.forall_mem_append.2 ⟨zero, decimal⟩)
    rwa [← naturalValue_eq_ofDigits, naturalValue_padded, naturalValue_naturalDigits, fits]
      at padded

end numerals

def InFixnumRange (k : Int) : Prop := -2 ^ 31 ≤ k ∧ k ≤ 2 ^ 31 - 1

theorem Fixnum.inFixnumRange (n : Fixnum) : InFixnumRange n.val := ⟨n.lower, n.upper⟩

/-- If the token is a numeral, it has no more digits than are converted. -/
def Convertible (token : List Char) : Prop :=
  ∀ k, Numeral token k → token.countP Char.isDigit ≤ digitLimit

section tokens

variable {table : Nat} {s : Store} {token : List Char} {a : Atom}

theorem convertible_iff : Convertible token ↔ ¬Overlong token := by
  constructor
  · rintro converted ⟨shape, long⟩
    have numeral : Numeral token (numeralValue token) := numeral_iff.2 ⟨shape, rfl⟩
    have few := converted _ numeral
    rw [numeral.countP] at few
    exact Nat.not_lt.2 few long
  · intro short k numeral
    rw [numeral.countP]
    exact Nat.not_lt.1 fun long => short ⟨(numeral_iff.1 numeral).1, long⟩

theorem convertible_of_length_le (h : token.length ≤ digitLimit) : Convertible token :=
  fun _ _ => Nat.le_trans List.countP_le_length h

theorem tokenAtom_num_iff {n : Fixnum} : TokenAtom token (.num n) ↔ Numeral token n.val := by
  rw [numeral_iff]
  constructor
  · intro atom
    cases atom with
    | num shape value => exact ⟨shape, value⟩
  · rintro ⟨shape, value⟩
    exact .num shape value

/-- A token that is converted has a value, which is what the token stands for. -/
theorem tokenValue_of_tokenAtom (hT : table < s.tables.size) (converted : Convertible token)
    (atom : TokenAtom token a) : ∃ v s', tokenValue table token s = .ok v s' ∧ Extends s s' ∧
      s'.IsAtom table v a := by
  have classified : classify token = .ok a := classified_iff.2 ⟨atom, convertible_iff.1 converted⟩
  obtain ⟨adds, -, entered, -⟩ := Store.ofAtom_spec hT a
  refine ⟨_, _, ?_, adds.toExtends, entered.isAtom atom.named⟩
  rw [tokenValue, classified]
  rfl

/-- A token that is converted is a number exactly if it is a numeral of that number. -/
theorem tokenValue_num_iff (hT : table < s.tables.size) (converted : Convertible token)
    {n : Fixnum} : (∃ serial s', tokenValue table token s = .ok (.num serial n) s') ↔
      Numeral token n.val := by
  obtain ⟨a, atom⟩ := exists_tokenAtom token
  obtain ⟨v, s', run, -, isAtom⟩ := tokenValue_of_tokenAtom hT converted atom
  rw [← tokenAtom_num_iff]
  constructor
  · rintro ⟨serial, s'', run'⟩
    cases run.symm.trans run'
    have number : s'.IsAtom table (.num serial n) (.num n) := ⟨serial, rfl⟩
    rwa [isAtom.unique number] at atom
  · intro number
    rw [atom.unique number] at isAtom
    obtain ⟨serial, rfl⟩ := isAtom
    exact ⟨serial, s', run⟩

/-- What is no number is `nil` or the symbol that the table has for the token. -/
theorem TokenAtom.symbol_of_no_number {v : Value} (atom : TokenAtom token a)
    (isAtom : s.IsAtom table v a) (noNumber : ¬∃ k, Numeral token k ∧ InFixnumRange k) :
    (token = "nil".toList → v = .nil) ∧
    (token ≠ "nil".toList → ∃ sym, v = .sym sym ∧ sym.name = String.ofList token ∧
      s.findSymbol? table sym.name = some sym) := by
  cases atom with
  | @num n shape value =>
    exact absurd ⟨n.val, numeral_iff.2 ⟨shape, value⟩, n.inFixnumRange⟩ noNumber
  | nil name => exact ⟨fun _ => isAtom, fun other => absurd name other⟩
  | sym other _ =>
    obtain ⟨sym, rfl, found⟩ := isAtom
    have name := Store.name_of_findSymbol? found
    exact ⟨fun name => absurd name other, fun _ => ⟨sym, rfl, name, name ▸ found⟩⟩

theorem toList_print_num (s : Store) (serial : Nat) (n : Fixnum) :
    (s.print (.num serial n)).toList = n.numeral := by
  have denotes : Denotes s 0 (.num serial n) (.atom (.num n)) := .atom ⟨serial, rfl⟩
  rw [denotes.print_eq, Sexp.written, String.toList_ofList, Sexp.render, List.append_nil]
  rfl

/-- Every token that is converted has a value, and nothing that was in the store is changed. The
value is a number exactly if the token is a numeral in range, and then it is the number of that
numeral; for any other token it is the symbol of the table with the token as its name, or `nil`. The
tokens of a number are a sign that fits, any number of zeros, and its digits. What a number is
printed as is one of them. -/
theorem number_tokens (hT : table < s.tables.size) :
    (∀ token, Convertible token → ∃ v s', tokenValue table token s = .ok v s' ∧ Extends s s' ∧
      (∀ k, (∃ serial n, v = .num serial n ∧ n.val = k) ↔ Numeral token k ∧ InFixnumRange k) ∧
      ((¬∃ k, Numeral token k ∧ InFixnumRange k) →
        (token = "nil".toList → v = .nil) ∧
        (token ≠ "nil".toList → ∃ sym, v = .sym sym ∧ sym.name = String.ofList token ∧
          s'.findSymbol? table sym.name = some sym))) ∧
    (∀ token (n : Fixnum), Convertible token →
      ((∃ serial s', tokenValue table token s = .ok (.num serial n) s') ↔
        ∃ (sign : Sign) (zeros : Nat), sign.apply n.val.natAbs = n.val ∧
          token = sign.text ++ (List.replicate zeros '0' ++ naturalDigits n.val.natAbs))) ∧
    ∀ (t : Store) (serial : Nat) (n : Fixnum), ∃ fresh s',
      tokenValue table (t.print (.num serial n)).toList s = .ok (.num fresh n) s' := by
  refine ⟨fun token converted => ?_, fun token n converted => ?_, fun t serial n => ?_⟩
  · obtain ⟨a, atom⟩ := exists_tokenAtom token
    obtain ⟨v, s', run, keeps, isAtom⟩ := tokenValue_of_tokenAtom hT converted atom
    refine ⟨v, s', run, keeps, fun k => ⟨?_, ?_⟩, atom.symbol_of_no_number isAtom⟩
    · rintro ⟨serial, n, rfl, rfl⟩
      exact ⟨(tokenValue_num_iff hT converted).1 ⟨serial, s', run⟩, n.inFixnumRange⟩
    · rintro ⟨numeral, lower, upper⟩
      obtain ⟨serial, s'', run'⟩ :=
        (tokenValue_num_iff hT converted (n := ⟨k, lower, upper⟩)).2 numeral
      cases run.symm.trans run'
      exact ⟨serial, _, rfl, rfl⟩
  · exact (tokenValue_num_iff hT converted).trans numeral_iff_padded
  · obtain ⟨atom, short⟩ := classified_iff.1 (classified_text (a := .num n) trivial).2.2
    rw [toList_print_num]
    exact (tokenValue_num_iff hT (convertible_iff.2 short)).2 (tokenAtom_num_iff.1 atom)

/-- Zeros behind a minus sign, a numeral just out of range, and what the largest number is printed
as. -/
theorem number_tokens_bounds : 0 < Store.empty.newTable.2.tables.size ∧
    Convertible "-007".toList ∧ Convertible "2147483648".toList ∧
    (∃ serial s', tokenValue 0 "-007".toList Store.empty.newTable.2 =
      .ok (.num serial ⟨-7, by decide, by decide⟩) s') ∧
    (∃ sym s', tokenValue 0 "2147483648".toList Store.empty.newTable.2 = .ok (.sym sym) s' ∧
      sym.name = "2147483648" ∧ s'.findSymbol? 0 sym.name = some sym) ∧
    ∃ fresh s', tokenValue 0
      (Store.empty.print (.num 5 ⟨2147483647, by decide, by decide⟩)).toList
      Store.empty.newTable.2 = .ok (.num fresh ⟨2147483647, by decide, by decide⟩) s' := by
  have hT : 0 < Store.empty.newTable.2.tables.size := by decide
  have padded : Convertible "-007".toList := convertible_of_length_le (by decide)
  have large : Convertible "2147483648".toList := convertible_of_length_le (by decide)
  have noNumber : ¬∃ k, Numeral "2147483648".toList k ∧ InFixnumRange k := by
    rintro ⟨k, numeral, -, upper⟩
    rw [← (numeral_iff.1 numeral).2] at upper
    exact absurd upper (by decide)
  obtain ⟨values, spellings, printed⟩ := number_tokens hT
  obtain ⟨v, s', run, -, -, symbol⟩ := values _ large
  obtain ⟨sym, rfl, name, found⟩ := (symbol noNumber).2 (by decide)
  refine ⟨hT, padded, large, ?_, ⟨sym, s', run, name, found⟩, printed _ _ _⟩
  refine (spellings _ _ padded).2 ⟨.minus, 2, rfl, ?_⟩
  rw [naturalDigits_of_lt (by decide)]
  rfl

end tokens

end PocketLisp
