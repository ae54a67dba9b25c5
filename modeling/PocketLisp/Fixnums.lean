import PocketLisp.DecimalNumerals

/-!
# Fixnums

Numbers are the integers of 32 bits.
-/
namespace PocketLisp

/-- An integer of 32 bits. -/
structure Fixnum where
  val : Int
  lower : -2147483648 ≤ val
  upper : val ≤ 2147483647
  deriving DecidableEq, Repr

namespace Fixnum

def ofInt? (i : Int) : Option Fixnum :=
  if h : -2147483648 ≤ i ∧ i ≤ 2147483647 then some ⟨i, h.1, h.2⟩ else none

def numeral (n : Fixnum) : List Char :=
  integerNumeral n.val

theorem ofInt?_eq_some_iff {i : Int} {n : Fixnum} : ofInt? i = some n ↔ i = n.val := by
  unfold ofInt?
  constructor
  · intro h
    split at h
    · cases h; rfl
    · cases h
  · rintro rfl
    rw [dif_pos ⟨n.lower, n.upper⟩]

end Fixnum

end PocketLisp
