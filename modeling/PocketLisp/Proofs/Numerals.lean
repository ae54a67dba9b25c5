import PocketLisp.Blanks
import PocketLisp.DecimalNumerals
import Mathlib.Data.List.Basic

/-!
# The numerals of integers

The numeral of an integer is a numeral of that value. It has no delimiter in it, and as many digits
as the integer needs.
-/
namespace PocketLisp

theorem naturalDigits_of_lt {n : Nat} (h : n < 10) : naturalDigits n = [digitChar n] := by
  rw [naturalDigits, naturalDigitsOnto, dif_pos h]

theorem naturalDigitsOnto_eq (n : Nat) (rest : List Char) :
    naturalDigitsOnto n rest = naturalDigits n ++ rest := by
  by_cases h : n < 10
  · rw [naturalDigitsOnto, dif_pos h, naturalDigits_of_lt h]
    rfl
  · have onto := naturalDigitsOnto_eq (n / 10) (digitChar (n % 10) :: rest)
    have alone := naturalDigitsOnto_eq (n / 10) [digitChar (n % 10)]
    have digits : naturalDigits n = naturalDigits (n / 10) ++ [digitChar (n % 10)] := by
      rw [← alone, naturalDigits, naturalDigitsOnto, dif_neg h]
    rw [naturalDigitsOnto, dif_neg h, onto, digits, List.append_assoc]
    rfl
termination_by n
decreasing_by all_goals omega

theorem naturalDigits_of_le {n : Nat} (h : 10 ≤ n) :
    naturalDigits n = naturalDigits (n / 10) ++ [digitChar (n % 10)] := by
  rw [← naturalDigitsOnto_eq, naturalDigits, naturalDigitsOnto, dif_neg (by omega)]

theorem naturalDigits_spec (n : Nat) :
    naturalDigits n ≠ [] ∧ ∀ c ∈ naturalDigits n, c.isDigit = true := by
  by_cases h : n < 10
  · rw [naturalDigits_of_lt h]
    exact ⟨by simp, by simpa using isDigit_digitChar h⟩
  · obtain ⟨-, digits⟩ := naturalDigits_spec (n / 10)
    have last := isDigit_digitChar (Nat.mod_lt n (by omega : 10 > 0))
    rw [naturalDigits_of_le (by omega)]
    exact ⟨by simp, List.forall_mem_append.2 ⟨digits, by simpa using last⟩⟩
termination_by n
decreasing_by omega

theorem length_naturalDigits_le {n k : Nat} (h : n < Nat.pow 10 (k + 1)) :
    (naturalDigits n).length ≤ k + 1 := by
  induction k generalizing n with
  | zero =>
    rw [naturalDigits_of_lt h]
    simp
  | succ k ih =>
    by_cases hn : n < 10
    · rw [naturalDigits_of_lt hn]
      simp
    · have hdiv : n / 10 < Nat.pow 10 (k + 1) := by
        rw [Nat.div_lt_iff_lt_mul (by omega)]
        exact h
      rw [naturalDigits_of_le (by omega)]
      simpa using ih hdiv

theorem not_isDigit_sign {c : Char} (h : c.isDigit = true) : c ≠ '+' ∧ c ≠ '-' := by
  constructor <;> rintro rfl <;> cases h

theorem unsigned_eq_self {digits : List Char} (h : ∀ c ∈ digits, c.isDigit = true) :
    unsigned digits = digits ∧ digits.head? ≠ some '-' := by
  cases digits with
  | nil => exact ⟨rfl, by simp⟩
  | cons c digits =>
    obtain ⟨plus, minus⟩ := not_isDigit_sign (h c (by simp))
    refine ⟨?_, by simpa using minus⟩
    unfold unsigned
    split
    · next heq => exact absurd (List.cons.inj heq).1 plus
    · next heq => exact absurd (List.cons.inj heq).1 minus
    · rfl

theorem unsigned_integerNumeral (i : Int) :
    unsigned (integerNumeral i) = naturalDigits i.natAbs := by
  unfold integerNumeral
  split
  · rfl
  · exact (unsigned_eq_self (naturalDigits_spec _).2).1

theorem isNumeral_integerNumeral (i : Int) : isNumeral (integerNumeral i) = true := by
  obtain ⟨nonempty, digits⟩ := naturalDigits_spec i.natAbs
  rw [isNumeral, unsigned_integerNumeral]
  simpa [nonempty] using digits

theorem numeralValue_integerNumeral (i : Int) : numeralValue (integerNumeral i) = i := by
  rw [numeralValue, unsigned_integerNumeral, naturalValue_naturalDigits]
  unfold integerNumeral
  split
  · next h =>
    simp only [List.head?_cons, if_true]
    omega
  · next h =>
    rw [if_neg (unsigned_eq_self (naturalDigits_spec _).2).2]
    omega

theorem not_isDelimiter_of_isDigit {c : Char} (h : c.isDigit = true) : isDelimiter c = false := by
  rw [Bool.eq_false_iff]
  intro hc
  simp only [isDelimiter, isBlank, Bool.or_eq_true, decide_eq_true_eq] at hc
  rcases hc with ((rfl | rfl) | rfl) | ((rfl | rfl) | rfl) | rfl <;> cases h

theorem not_isDelimiter_integerNumeral (i : Int) :
    ∀ c ∈ integerNumeral i, isDelimiter c = false := by
  have digits : ∀ c ∈ naturalDigits i.natAbs, isDelimiter c = false := fun c hc =>
    not_isDelimiter_of_isDigit ((naturalDigits_spec _).2 c hc)
  unfold integerNumeral
  split
  · exact List.forall_mem_cons.2 ⟨by decide, digits⟩
  · exact digits

theorem integerNumeral_ne_nil (i : Int) : integerNumeral i ≠ [] := by
  unfold integerNumeral
  split
  · simp
  · exact (naturalDigits_spec _).1

end PocketLisp
