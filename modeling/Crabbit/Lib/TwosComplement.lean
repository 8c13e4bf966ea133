/-
  Crabbit.Lib.TwosComplement

  Fixed-width integers as natural numbers below `2 ^ w`.

    * `wrap w z`      — the `w` bits that represent the integer `z`.
    * `toSigned w x`  — the integer in `[-2^(w-1), 2^(w-1))` that `x` represents.

  The two are inverse on their ranges (`toSigned_wrap`, `wrap_toSigned`), and
  `wrap` only sees its argument modulo `2 ^ w` (`wrap_eq_wrap_iff`), which is
  how the sums and products of the machine are compared with the true ones.
-/

import Mathlib.Data.Int.ModEq
import Mathlib.Algebra.Order.Group.Int
import Mathlib.Data.Nat.Notation
import Mathlib.Tactic.Ring
import Mathlib.Tactic.Linarith

namespace Crabbit.Lib

/-- The `w` bits of `z`. -/
def wrap (w : Nat) (z : Int) : Nat := (z % 2 ^ w).toNat

/-- The two's complement reading of `w` bits. -/
def toSigned (w x : Nat) : Int := Int.bmod x (2 ^ w)

theorem two_pow_pos_int (w : Nat) : (0 : Int) < 2 ^ w := by positivity

theorem natCast_two_pow (w : Nat) : ((2 ^ w : Nat) : Int) = 2 ^ w := by norm_cast

theorem two_pow_eq_two_mul {w : Nat} (hw : 0 < w) : 2 ^ w = 2 * 2 ^ (w - 1) := by
  rw [← pow_succ']
  congr 1
  omega

theorem two_pow_eq_two_mul_int {w : Nat} (hw : 0 < w) : (2 : Int) ^ w = 2 * 2 ^ (w - 1) := by
  exact_mod_cast two_pow_eq_two_mul hw

/-! ## `wrap` -/

theorem natCast_wrap (w : Nat) (z : Int) : (wrap w z : Int) = z % 2 ^ w := by
  unfold wrap
  rw [Int.toNat_of_nonneg (Int.emod_nonneg _ (two_pow_pos_int w).ne')]

theorem wrap_lt (w : Nat) (z : Int) : wrap w z < 2 ^ w := by
  have h := Int.emod_lt_of_pos z (two_pow_pos_int w)
  rw [← natCast_wrap] at h
  exact_mod_cast h

theorem wrap_natCast (w x : Nat) : wrap w (x : Int) = x % 2 ^ w := by
  have h : (wrap w (x : Int) : Int) = ((x % 2 ^ w : Nat) : Int) := by
    rw [natCast_wrap]
    norm_cast
  exact_mod_cast h

theorem wrap_natCast_of_lt {w x : Nat} (h : x < 2 ^ w) : wrap w (x : Int) = x := by
  rw [wrap_natCast, Nat.mod_eq_of_lt h]

/-- `wrap` identifies exactly the integers that agree modulo `2 ^ w`. -/
theorem wrap_eq_wrap_iff {w : Nat} {y z : Int} : wrap w y = wrap w z ↔ y ≡ z [ZMOD 2 ^ w] := by
  unfold Int.ModEq
  rw [← natCast_wrap, ← natCast_wrap]
  norm_cast

theorem natCast_wrap_modEq (w : Nat) (z : Int) : (wrap w z : Int) ≡ z [ZMOD 2 ^ w] := by
  rw [natCast_wrap]
  exact Int.mod_modEq z _

/-- A representation in range is the representation. -/
theorem wrap_eq_of_modEq {w x : Nat} {z : Int} (hx : x < 2 ^ w) (h : (x : Int) ≡ z [ZMOD 2 ^ w]) :
    wrap w z = x := by
  rw [← wrap_eq_wrap_iff.mpr h, wrap_natCast_of_lt hx]

/-! ## `toSigned` -/

theorem toSigned_modEq (w x : Nat) : toSigned w x ≡ x [ZMOD 2 ^ w] := by
  have h := Int.bmod_emod (x := (x : Int)) (m := 2 ^ w)
  rw [natCast_two_pow] at h
  exact h

theorem wrap_toSigned {w x : Nat} (hx : x < 2 ^ w) : wrap w (toSigned w x) = x :=
  wrap_eq_of_modEq hx (toSigned_modEq w x).symm

theorem toSigned_of_lt_half {w x : Nat} (hw : 0 < w) (hx : x < 2 ^ (w - 1)) :
    toSigned w x = x := by
  have h2 := two_pow_eq_two_mul hw
  unfold toSigned
  apply Int.bmod_eq_of_le <;> rw [natCast_two_pow, two_pow_eq_two_mul_int hw]
  · have : (0 : Int) ≤ x := Int.natCast_nonneg x
    have : (0 : Int) < 2 ^ (w - 1) := two_pow_pos_int _
    omega
  · have : (x : Int) < 2 ^ (w - 1) := by exact_mod_cast hx
    omega

theorem toSigned_of_half_le {w x : Nat} (hw : 0 < w) (hx : 2 ^ (w - 1) ≤ x) (hx' : x < 2 ^ w) :
    toSigned w x = (x : Int) - 2 ^ w := by
  have h2 := two_pow_eq_two_mul_int hw
  have hlo : (2 : Int) ^ (w - 1) ≤ x := by exact_mod_cast hx
  have hhi : (x : Int) < 2 ^ w := by exact_mod_cast hx'
  unfold toSigned
  rw [← Int.sub_bmod_right (x : Int) (2 ^ w), natCast_two_pow]
  apply Int.bmod_eq_of_le <;> rw [natCast_two_pow, h2] <;> rw [h2] at hhi <;> omega

theorem neg_two_pow_le_toSigned {w x : Nat} (hw : 0 < w) (hx : x < 2 ^ w) :
    -2 ^ (w - 1) ≤ toSigned w x := by
  have h2 := two_pow_eq_two_mul_int hw
  have hpos := two_pow_pos_int (w - 1)
  rcases Nat.lt_or_ge x (2 ^ (w - 1)) with h | h
  · rw [toSigned_of_lt_half hw h]
    omega
  · have : (2 : Int) ^ (w - 1) ≤ x := by exact_mod_cast h
    rw [toSigned_of_half_le hw h hx]
    omega

theorem toSigned_lt_two_pow {w x : Nat} (hw : 0 < w) (hx : x < 2 ^ w) :
    toSigned w x < 2 ^ (w - 1) := by
  have h2 := two_pow_eq_two_mul_int hw
  rcases Nat.lt_or_ge x (2 ^ (w - 1)) with h | h
  · rw [toSigned_of_lt_half hw h]
    exact_mod_cast h
  · have : (x : Int) < 2 ^ w := by exact_mod_cast hx
    rw [toSigned_of_half_le hw h hx]
    omega

/-- The sign bit. -/
theorem toSigned_neg_iff {w x : Nat} (hw : 0 < w) (hx : x < 2 ^ w) :
    toSigned w x < 0 ↔ 2 ^ (w - 1) ≤ x := by
  rcases Nat.lt_or_ge x (2 ^ (w - 1)) with h | h
  · rw [toSigned_of_lt_half hw h]
    omega
  · have : (x : Int) < 2 ^ w := by exact_mod_cast hx
    rw [toSigned_of_half_le hw h hx]
    omega

/-- An integer in range survives the round trip. -/
theorem toSigned_wrap {w : Nat} {z : Int} (hw : 0 < w) (hlo : -2 ^ (w - 1) ≤ z)
    (hhi : z < 2 ^ (w - 1)) : toSigned w (wrap w z) = z := by
  unfold toSigned
  rw [natCast_wrap]
  have h := Int.emod_bmod z (2 ^ w)
  rw [natCast_two_pow] at h
  rw [h]
  apply Int.bmod_eq_of_le <;> rw [natCast_two_pow, two_pow_eq_two_mul_int hw]
  · omega
  · have := two_pow_pos_int (w - 1)
    omega

theorem toSigned_inj {w x y : Nat} (hx : x < 2 ^ w) (hy : y < 2 ^ w)
    (h : toSigned w x = toSigned w y) : x = y := by
  rw [← wrap_toSigned hx, h, wrap_toSigned hy]

/-- Sign extension keeps the signed reading. -/
theorem toSigned_wrap_toSigned {v w x : Nat} (hv : 0 < v) (hvw : v ≤ w) (hx : x < 2 ^ v) :
    toSigned w (wrap w (toSigned v x)) = toSigned v x := by
  have hle : (2 : Int) ^ (v - 1) ≤ 2 ^ (w - 1) := by
    exact_mod_cast Nat.pow_le_pow_right (by omega) (by omega)
  have hlo := neg_two_pow_le_toSigned hv hx
  have hhi := toSigned_lt_two_pow hv hx
  exact toSigned_wrap (by omega) (by omega) (by omega)

/-- 0 and 1 read as themselves from two bits on. -/
theorem two_le_of_two_le_natAbs {w x : Nat} (hw : 2 ≤ w) (h : 2 ≤ (toSigned w x).natAbs) :
    2 ≤ x := by
  by_contra hlt
  have hone : 1 < 2 ^ (w - 1) := Nat.one_lt_two_pow (by omega)
  rw [toSigned_of_lt_half (by omega) (by omega)] at h
  omega

/-! ## Arithmetic modulo `2 ^ w` -/

theorem wrap_add (w : Nat) (y z : Int) : wrap w (wrap w y + wrap w z) = wrap w (y + z) :=
  wrap_eq_wrap_iff.mpr ((natCast_wrap_modEq w y).add (natCast_wrap_modEq w z))

theorem wrap_sub (w : Nat) (y z : Int) : wrap w (wrap w y - wrap w z) = wrap w (y - z) :=
  wrap_eq_wrap_iff.mpr ((natCast_wrap_modEq w y).sub (natCast_wrap_modEq w z))

theorem wrap_mul (w : Nat) (y z : Int) : wrap w (wrap w y * wrap w z) = wrap w (y * z) :=
  wrap_eq_wrap_iff.mpr ((natCast_wrap_modEq w y).mul (natCast_wrap_modEq w z))

/-- Dropping high bits of a representation leaves a representation. -/
theorem wrap_mod_two_pow {v w : Nat} (h : v ≤ w) (z : Int) : wrap w z % 2 ^ v = wrap v z := by
  rw [← wrap_natCast, wrap_eq_wrap_iff]
  have hdvd : (2 : Int) ^ v ∣ 2 ^ w := pow_dvd_pow 2 h
  exact (natCast_wrap_modEq w z).of_dvd hdvd

/-! ## Signed and unsigned readings -/

/-- The integer `w` bits stand for. -/
def reading (s : Bool) (w x : Nat) : Int := if s then toSigned w x else x

/-- The integers `w` bits can stand for. -/
def InRange (s : Bool) (w : Nat) (z : Int) : Prop :=
  if s then -2 ^ (w - 1) ≤ z ∧ z < 2 ^ (w - 1) else 0 ≤ z ∧ z < 2 ^ w

theorem reading_true (w x : Nat) : reading true w x = toSigned w x := if_pos rfl

theorem reading_false (w x : Nat) : reading false w x = x := if_neg Bool.false_ne_true

theorem inRange_reading {s : Bool} {w x : Nat} (hw : 0 < w) (hx : x < 2 ^ w) :
    InRange s w (reading s w x) := by
  cases s
  · have hlt : (x : Int) < 2 ^ w := by exact_mod_cast hx
    exact ⟨Int.natCast_nonneg x, hlt⟩
  · exact ⟨neg_two_pow_le_toSigned hw hx, toSigned_lt_two_pow hw hx⟩

theorem wrap_reading {s : Bool} {w x : Nat} (hx : x < 2 ^ w) :
    wrap w (reading s w x) = x := by
  cases s
  · exact wrap_natCast_of_lt hx
  · exact wrap_toSigned hx

/-- The representation of a non-negative number of `w` bits. -/
theorem natCast_wrap_of_nonneg {w : Nat} {z : Int} (h0 : 0 ≤ z) (h : z < 2 ^ w) :
    (wrap w z : Int) = z := by
  rw [natCast_wrap, Int.emod_eq_of_lt h0 h]

/-- Shifting the bits of a non-negative number. -/
theorem wrap_div_two_pow {w k : Nat} {z : Int} (h0 : 0 ≤ z) (h : z < 2 ^ w) :
    wrap w z / 2 ^ k = wrap w (z / 2 ^ k) := by
  have hq0 : 0 ≤ z / 2 ^ k := Int.ediv_nonneg h0 (two_pow_pos_int k).le
  have hqlt : z / 2 ^ k < 2 ^ w := lt_of_le_of_lt (Int.ediv_le_self _ h0) h
  have hcast : ((wrap w z / 2 ^ k : Nat) : Int) = (wrap w (z / 2 ^ k) : Int) := by
    rw [Int.natCast_div, natCast_wrap_of_nonneg h0 h, natCast_wrap_of_nonneg hq0 hqlt,
      natCast_two_pow]
  exact_mod_cast hcast

/-- Masking the low bits. -/
theorem wrap_and_two_pow_sub_one {v w : Nat} (h : v ≤ w) (z : Int) :
    wrap w z &&& (2 ^ v - 1) = wrap w (z % 2 ^ v) := by
  have hlt : z % 2 ^ v < 2 ^ w :=
    lt_of_lt_of_le (Int.emod_lt_of_pos z (two_pow_pos_int v))
      (by exact_mod_cast Nat.pow_le_pow_right (by omega) h)
  have hcast : ((wrap w z % 2 ^ v : Nat) : Int) = (wrap w (z % 2 ^ v) : Int) := by
    rw [wrap_mod_two_pow h, natCast_wrap,
      natCast_wrap_of_nonneg (Int.emod_nonneg _ (two_pow_pos_int v).ne') hlt]
  rw [Nat.and_two_pow_sub_one_eq_mod]
  exact_mod_cast hcast

/-- The sign bit of a representation. -/
theorem wrap_div_half {w : Nat} {z : Int} (hw : 0 < w) (h : InRange true w z) :
    wrap w z / 2 ^ (w - 1) = if z < 0 then 1 else 0 := by
  have hhalf := two_pow_eq_two_mul hw
  have hlt := wrap_lt w z
  have hsign := toSigned_neg_iff hw hlt
  rw [toSigned_wrap hw h.1 h.2] at hsign
  split
  · have := hsign.mp ‹_›
    apply Nat.div_eq_of_lt_le <;> omega
  · apply Nat.div_eq_of_lt
    omega

end Crabbit.Lib
