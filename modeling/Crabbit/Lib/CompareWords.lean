/-
  Crabbit.Lib.CompareWords

  Comparing two words by their difference: the sign of the difference and
  whether it overflows decide the signed order.
-/

import Mathlib.Data.BitVec

namespace Crabbit.Lib

/-- A difference fits, or its operands have two signs and it wraps to the
    sign of the second. -/
theorem toInt_sub_cases (a b : BitVec 64) :
    ((a - b).toInt = a.toInt - b.toInt) ∨
      (a.toInt < 0 ∧ 0 ≤ b.toInt ∧ 0 ≤ (a - b).toInt ∧
        (a - b).toInt = a.toInt - b.toInt + 2 ^ 64) ∨
      (0 ≤ a.toInt ∧ b.toInt < 0 ∧ (a - b).toInt < 0 ∧
        (a - b).toInt = a.toInt - b.toInt - 2 ^ 64) := by
  have ha := a.toInt_lt
  have ha' := a.le_toInt
  have hb := b.toInt_lt
  have hb' := b.le_toInt
  have hsub : (a - b).toInt = (a.toInt - b.toInt).bmod (2 ^ 64) := BitVec.toInt_sub
  rw [hsub]
  by_cases hlow : a.toInt - b.toInt < -2 ^ 63
  · right
    left
    have hbmod : (a.toInt - b.toInt).bmod (2 ^ 64) = a.toInt - b.toInt + 2 ^ 64 := by
      rw [← Int.add_bmod_right, Int.bmod_eq_of_le (by omega) (by omega)]
      rfl
    rw [hbmod]
    omega
  · by_cases hhigh : 2 ^ 63 ≤ a.toInt - b.toInt
    · right
      right
      have hbmod : (a.toInt - b.toInt).bmod (2 ^ 64) = a.toInt - b.toInt - 2 ^ 64 := by
        rw [← Int.sub_bmod_right, Int.bmod_eq_of_le (by omega) (by omega)]
        rfl
      rw [hbmod]
      omega
    · left
      exact Int.bmod_eq_of_le (by omega) (by omega)

/-- The sign of a difference, corrected by the overflow, is the comparison. -/
theorem sign_bne_overflow (a b : BitVec 64) :
    ((a - b).msb != decide ((a - b).toInt ≠ a.toInt - b.toInt)) = a.slt b := by
  rw [BitVec.slt_eq_decide, BitVec.msb_eq_toInt]
  rcases toInt_sub_cases a b with h | ⟨h1, h2, h3, h4⟩ | ⟨h1, h2, h3, h4⟩
  · have hiff : a.toInt - b.toInt < 0 ↔ a.toInt < b.toInt := by omega
    simp only [h, ne_eq, not_true, decide_false, Bool.bne_false, hiff]
  · have hne : (a - b).toInt ≠ a.toInt - b.toInt := by omega
    have hlt : a.toInt < b.toInt := by omega
    rw [decide_eq_true hne, decide_eq_true hlt, decide_eq_false (by omega)]
    rfl
  · have hne : (a - b).toInt ≠ a.toInt - b.toInt := by omega
    have hlt : ¬ a.toInt < b.toInt := by omega
    rw [decide_eq_true hne, decide_eq_false hlt, decide_eq_true h3]
    rfl

/-- The sign or equality is the weak order. -/
theorem beq_or_slt (a b : BitVec 64) : (a == b || a.slt b) = a.sle b := by
  rw [Bool.eq_iff_iff, Bool.or_eq_true, beq_iff_eq, BitVec.slt_eq_decide,
    BitVec.sle_eq_decide, decide_eq_true_iff, decide_eq_true_iff, ← BitVec.toInt_inj]
  omega

theorem ult_or_beq (a b : BitVec 64) : (a.ult b || a == b) = a.ule b := by
  rw [Bool.eq_iff_iff, Bool.or_eq_true, beq_iff_eq, BitVec.ult_eq_decide,
    BitVec.ule_eq_decide, decide_eq_true_iff, decide_eq_true_iff, ← BitVec.toNat_inj]
  omega

end Crabbit.Lib
