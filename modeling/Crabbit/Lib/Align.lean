/-
  Crabbit.Lib.Align

  Rounding a natural number up to a multiple by the usual bit trick
  `(value + align - 1) & !(align - 1)`.
-/

import Mathlib.Data.Nat.Bitwise
import Mathlib.Tactic.Ring

namespace Crabbit.Lib

/-- `(value + align - 1) & !(align - 1)`; masking out the low bits is a
    subtraction of them. -/
def roundUp (value align : Nat) : Nat :=
  (value + align - 1) - ((value + align - 1) &&& (align - 1))

/-- On a power of two the trick is division and multiplication. -/
theorem roundUp_two_pow (value k : Nat) :
    roundUp value (2 ^ k) = (value + 2 ^ k - 1) / 2 ^ k * 2 ^ k := by
  unfold roundUp
  rw [Nat.and_two_pow_sub_one_eq_mod]
  have h := Nat.div_add_mod (value + 2 ^ k - 1) (2 ^ k)
  rw [Nat.mul_comm] at h
  omega

theorem dvd_roundUp (value k : Nat) : 2 ^ k ∣ roundUp value (2 ^ k) := by
  rw [roundUp_two_pow]
  exact Nat.dvd_mul_left _ _

theorem le_roundUp (value k : Nat) : value ≤ roundUp value (2 ^ k) := by
  rw [roundUp_two_pow]
  have hpos : 0 < 2 ^ k := Nat.two_pow_pos k
  have h := Nat.div_add_mod (value + 2 ^ k - 1) (2 ^ k)
  have hlt := Nat.mod_lt (value + 2 ^ k - 1) hpos
  rw [Nat.mul_comm] at h
  omega

theorem roundUp_lt (value k : Nat) : roundUp value (2 ^ k) < value + 2 ^ k := by
  rw [roundUp_two_pow]
  have hpos : 0 < 2 ^ k := Nat.two_pow_pos k
  have h := Nat.div_mul_le_self (value + 2 ^ k - 1) (2 ^ k)
  omega

/-- A value is fixed by rounding exactly when it is a multiple already. -/
theorem roundUp_eq_self_iff (value k : Nat) :
    roundUp value (2 ^ k) = value ↔ 2 ^ k ∣ value := by
  constructor
  · intro h
    rw [← h]
    exact dvd_roundUp value k
  · rintro ⟨q, rfl⟩
    obtain ⟨r, hr⟩ := dvd_roundUp (2 ^ k * q) k
    have hle := le_roundUp (2 ^ k * q) k
    have hlt := roundUp_lt (2 ^ k * q) k
    rw [hr] at hle hlt ⊢
    have hpos : 0 < 2 ^ k := Nat.two_pow_pos k
    have h1 : q ≤ r := Nat.le_of_mul_le_mul_left hle hpos
    have h2 : r < q + 1 := by
      apply Nat.lt_of_mul_lt_mul_left (a := 2 ^ k)
      rw [Nat.mul_add, Nat.mul_one]
      exact hlt
    rw [Nat.le_antisymm (Nat.lt_succ_iff.mp h2) h1]

/-- Rounding gives the least multiple. -/
theorem roundUp_le_of_dvd {value k bound : Nat} (hdvd : 2 ^ k ∣ bound) (hle : value ≤ bound) :
    roundUp value (2 ^ k) ≤ bound := by
  obtain ⟨r, hr⟩ := dvd_roundUp value k
  obtain ⟨q, rfl⟩ := hdvd
  have hlt := roundUp_lt value k
  rw [hr] at hlt ⊢
  have hlt' : 2 ^ k * r < 2 ^ k * (q + 1) := by
    rw [Nat.mul_add, Nat.mul_one]
    omega
  exact Nat.mul_le_mul_left _ (Nat.lt_succ_iff.mp (Nat.lt_of_mul_lt_mul_left hlt'))

/-- Two alignments round alike when the lesser one already rounds to a
    multiple of the greater. -/
theorem roundUp_eq_roundUp_iff (value : Nat) {i j : Nat} (h : i ≤ j) :
    roundUp value (2 ^ i) = roundUp value (2 ^ j) ↔ 2 ^ j ∣ roundUp value (2 ^ i) := by
  constructor
  · intro heq
    rw [heq]
    exact dvd_roundUp value j
  · intro hdvd
    apply Nat.le_antisymm
    · have hij : 2 ^ i ∣ roundUp value (2 ^ j) :=
        Nat.dvd_trans (Nat.pow_dvd_pow 2 h) (dvd_roundUp value j)
      exact roundUp_le_of_dvd hij (le_roundUp value j)
    · exact roundUp_le_of_dvd hdvd (le_roundUp value i)

/-- `u64::next_multiple_of`, for any positive alignment. -/
def nextMultipleOf (value align : Nat) : Nat := (value + (align - 1)) / align * align

theorem dvd_nextMultipleOf (value align : Nat) : align ∣ nextMultipleOf value align :=
  Nat.dvd_mul_left _ _

theorem le_nextMultipleOf {align : Nat} (h : 0 < align) (value : Nat) :
    value ≤ nextMultipleOf value align := by
  have hdiv := Nat.div_add_mod (value + (align - 1)) align
  have hlt := Nat.mod_lt (value + (align - 1)) h
  rw [nextMultipleOf, Nat.mul_comm]
  omega

end Crabbit.Lib
