/-
  Crabbit.Lib.Overflow

  Overflow of fixed-width arithmetic: the sign rules for addition and
  subtraction, products at twice the width, and high halves of products.
-/

import Crabbit.Lib.TwosComplement
import Mathlib.Data.BitVec
import Mathlib.Tactic.Linarith
import Mathlib.Tactic.Ring

namespace Crabbit.Lib

variable {w : Nat}

/-! ## Sign rules -/

/-- An addition overflows when its operands share a sign that the sum does not
    have. -/
theorem msb_add_sign (x y : BitVec w) :
    (((x + y) ^^^ x) &&& ((x + y) ^^^ y)).msb = x.saddOverflow y := by
  rw [BitVec.saddOverflow_eq, BitVec.msb_and, BitVec.msb_xor, BitVec.msb_xor]
  cases (x + y).msb <;> cases x.msb <;> cases y.msb <;> rfl

/-- A subtraction overflows when its operands differ in sign and the difference
    has not that of the first. -/
theorem msb_sub_sign (x y : BitVec w) :
    ((x ^^^ y) &&& (x ^^^ (x - y))).msb = x.ssubOverflow y := by
  rw [BitVec.ssubOverflow_eq, BitVec.msb_and, BitVec.msb_xor, BitVec.msb_xor]
  cases (x - y).msb <;> cases x.msb <;> cases y.msb <;> rfl

theorem saddOverflow_iff (x y : BitVec w) :
    x.saddOverflow y = true ↔ ¬ InRange true w (x.toInt + y.toInt) := by
  rw [BitVec.saddOverflow, Bool.or_eq_true, decide_eq_true_iff, decide_eq_true_iff, InRange,
    if_pos rfl]
  omega

theorem ssubOverflow_iff (x y : BitVec w) :
    x.ssubOverflow y = true ↔ ¬ InRange true w (x.toInt - y.toInt) := by
  rw [BitVec.ssubOverflow, Bool.or_eq_true, decide_eq_true_iff, decide_eq_true_iff, InRange,
    if_pos rfl]
  omega

theorem inRange_toInt (x : BitVec w) : InRange true w x.toInt := by
  rw [InRange, if_pos rfl]
  exact ⟨BitVec.le_toInt x, BitVec.toInt_lt⟩

theorem ofInt_sub (w : Nat) (a b : Int) :
    BitVec.ofInt w (a - b) = BitVec.ofInt w a - BitVec.ofInt w b := by
  rw [Int.sub_eq_add_neg, BitVec.ofInt_add, BitVec.ofInt_neg, BitVec.sub_eq_add_neg]

/-! ## Saturation -/

/-- A shift down to the sign bit fills with it. -/
theorem sshiftRight_sign (hw : 0 < w) (x : BitVec w) :
    x.sshiftRight (w - 1) = if x.msb then BitVec.allOnes w else 0#w := by
  have hhalf := two_pow_pos_int (w - 1)
  have hge := BitVec.le_toInt x
  have hlt := @BitVec.toInt_lt w x
  have hmsb := @BitVec.msb_eq_toInt w x
  have hshift : x.toInt >>> (w - 1) = if x.msb then -1 else 0 := by
    rw [Int.shiftRight_eq_div_pow, natCast_two_pow, hmsb]
    split
    · next hneg =>
      rw [decide_eq_true_iff] at hneg
      exact Int.ediv_eq_neg_one_of_neg_of_le hneg (by omega)
    · next hneg =>
      rw [decide_eq_true_iff] at hneg
      exact Int.ediv_eq_zero_of_lt (by omega) hlt
  rw [← BitVec.toInt_inj, BitVec.toInt_sshiftRight, hshift]
  cases x.msb
  · exact BitVec.toInt_zero.symm
  · exact (BitVec.toInt_allOnes.trans (if_pos hw)).symm

/-- The largest number of a signed type, by its bits. -/
theorem ofInt_max (w : Nat) :
    BitVec.ofInt w (2 ^ (w - 1) - 1) = BitVec.ofNat w (2 ^ (w - 1) - 1) := by
  have hcast : ((2 ^ (w - 1) - 1 : Nat) : Int) = 2 ^ (w - 1) - 1 := by
    rw [Int.natCast_sub (Nat.two_pow_pos _), natCast_two_pow]
    rfl
  rw [← hcast, BitVec.ofInt_natCast]

/-- The least is its complement. -/
theorem ofInt_min (w : Nat) :
    BitVec.ofInt w (-2 ^ (w - 1)) = ~~~ BitVec.ofNat w (2 ^ (w - 1) - 1) := by
  rw [BitVec.not_eq_neg_add, ← ofInt_max w, ← BitVec.ofInt_neg]
  show _ = _ - BitVec.ofInt w 1
  rw [← ofInt_sub]
  congr 1
  omega

/-! ## Twice the width -/

/-- A number survives the way through a narrower type when it is in that type's
    range. -/
theorem signExtend_ofInt_eq_iff {v : Nat} (hw : 0 < w) (hwv : w ≤ v) {z : Int}
    (hz : InRange true v z) :
    BitVec.ofInt v z = (BitVec.ofInt w z).signExtend v ↔ InRange true w z := by
  have hwide : (BitVec.ofInt v z).toInt = z :=
    BitVec.toInt_ofInt_eq_self (by omega) hz.1 hz.2
  rw [← BitVec.toInt_inj, hwide, BitVec.toInt_signExtend_of_le hwv]
  constructor
  · intro h
    rw [h]
    exact inRange_toInt _
  · intro h
    exact (BitVec.toInt_ofInt_eq_self hw h.1 h.2).symm

/-- A product fits in twice the width. -/
theorem inRange_mul (hw : 0 < w) {a b : Int} (ha : InRange true w a) (hb : InRange true w b) :
    InRange true (w * 2) (a * b) := by
  obtain ⟨ha0, ha1⟩ := ha
  obtain ⟨hb0, hb1⟩ := hb
  have hpow : (2 : Int) ^ (w * 2 - 1) = 2 * (2 ^ (w - 1) * 2 ^ (w - 1)) := by
    rw [← pow_add, ← pow_succ']
    congr 1
    omega
  have hpos := two_pow_pos_int (w - 1)
  rw [InRange, if_pos rfl, hpow]
  generalize (2 : Int) ^ (w - 1) = half at *
  have hsq : 0 < half * half := mul_pos hpos hpos
  constructor
  · nlinarith [mul_nonneg (by linarith : 0 ≤ half + a) (by linarith : 0 ≤ half - b),
      mul_nonneg (by linarith : 0 ≤ half - a) (by linarith : 0 ≤ half + b)]
  · nlinarith [mul_nonneg (by linarith : 0 ≤ half + a) (by linarith : 0 ≤ half + b),
      mul_nonneg (by linarith : 0 ≤ half - a) (by linarith : 0 ≤ half - b)]

theorem signExtend_mul (v : Nat) (x y : BitVec w) :
    x.signExtend v * y.signExtend v = BitVec.ofInt v (x.toInt * y.toInt) := by
  rw [BitVec.ofInt_mul]
  rfl

theorem toNat_setWidth_mul (x y : BitVec w) :
    (x.setWidth (w * 2) * y.setWidth (w * 2)).toNat = x.toNat * y.toNat := by
  have hle : 2 ^ w ≤ 2 ^ (w * 2) := Nat.pow_le_pow_right (by omega) (by omega)
  have hproduct : x.toNat * y.toNat < 2 ^ (w * 2) := by
    rw [Nat.mul_comm w, Nat.two_mul, Nat.pow_add]
    exact Nat.mul_lt_mul'' x.isLt y.isLt
  rw [BitVec.toNat_mul, BitVec.toNat_setWidth, BitVec.toNat_setWidth,
    Nat.mod_eq_of_lt (lt_of_lt_of_le x.isLt hle), Nat.mod_eq_of_lt (lt_of_lt_of_le y.isLt hle),
    Nat.mod_eq_of_lt hproduct]

/-! ## High halves -/

/-- The high half of a product from the products of halves. -/
theorem mul_div_square {base : Nat} (hbase : 0 < base) (a b : Nat) :
    a * b / (base * base) = (a / base) * (b / base) + (a / base) * (b % base) / base +
      (a % base) * (b / base) / base +
      ((a / base) * (b % base) % base + (a % base) * (b / base) % base +
        (a % base) * (b % base) / base) / base := by
  have ha := Nat.div_add_mod a base
  have hb := Nat.div_add_mod b base
  have hcrossA := Nat.div_add_mod ((a / base) * (b % base)) base
  have hcrossB := Nat.div_add_mod ((a % base) * (b / base)) base
  have hlow := Nat.div_add_mod ((a % base) * (b % base)) base
  have hlowLt := Nat.mod_lt ((a % base) * (b % base)) hbase
  generalize a / base = aHi at *
  generalize a % base = aLo at *
  generalize b / base = bHi at *
  generalize b % base = bLo at *
  generalize aHi * bLo / base = crossAHi at *
  generalize aHi * bLo % base = crossALo at *
  generalize aLo * bHi / base = crossBHi at *
  generalize aLo * bHi % base = crossBLo at *
  generalize aLo * bLo / base = lowHi at *
  generalize aLo * bLo % base = lowLo at *
  have hproduct : a * b = lowLo + base * (crossALo + crossBLo + lowHi +
      base * (aHi * bHi + crossAHi + crossBHi)) := by
    rw [← ha, ← hb]
    have hexpand : (base * aHi + aLo) * (base * bHi + bLo) =
        base * base * (aHi * bHi) + base * (aHi * bLo) + base * (aLo * bHi) + aLo * bLo := by ring
    rw [hexpand, ← hcrossA, ← hcrossB, ← hlow]
    ring
  rw [hproduct, ← Nat.div_div_eq_div_mul, Nat.add_mul_div_left _ _ hbase,
    Nat.div_eq_of_lt hlowLt, Nat.zero_add, Nat.add_mul_div_left _ _ hbase, Nat.add_comm]

/-- The high half of a product of signed numbers: that of the bits, less each
    operand where the other is negative. -/
theorem ofInt_mul_div (x y : BitVec w) :
    BitVec.ofInt w (x.toInt * y.toInt / 2 ^ w) =
      BitVec.ofNat w (x.toNat * y.toNat / 2 ^ w) - (if x.msb then y else 0) -
        (if y.msb then x else 0) := by
  have hpos := two_pow_pos_int w
  have hhigh : ∀ c : Int, BitVec.ofInt w (((x.toNat : Int) * y.toNat + c * 2 ^ w) / 2 ^ w) =
      BitVec.ofNat w (x.toNat * y.toNat / 2 ^ w) + BitVec.ofInt w c := by
    intro c
    rw [Int.add_mul_ediv_right _ _ hpos.ne', BitVec.ofInt_add, ← BitVec.ofInt_natCast,
      Int.natCast_ediv, Int.natCast_mul, natCast_two_pow]
  have hnat : ∀ v : BitVec w, BitVec.ofInt w (v.toNat : Int) = v := fun v => by
    rw [BitVec.ofInt_natCast, BitVec.ofNat_toNat, BitVec.setWidth_eq]
  have hzero : BitVec.ofInt w (2 ^ w) = 0 := by
    rw [← natCast_two_pow, BitVec.ofInt_natCast]
    apply BitVec.eq_of_toNat_eq
    rw [BitVec.toNat_ofNat, Nat.mod_self]
    rfl
  -- By the signs: a negative number is its bits less `2 ^ w`.
  rw [BitVec.toInt_eq_msb_cond x, BitVec.toInt_eq_msb_cond y, natCast_two_pow]
  by_cases hx : x.msb = true <;> by_cases hy : y.msb = true
  · rw [if_pos hx, if_pos hx, if_pos hy, if_pos hy]
    have hproduct : ((x.toNat : Int) - 2 ^ w) * (y.toNat - 2 ^ w) =
        x.toNat * y.toNat + (2 ^ w - y.toNat - x.toNat) * 2 ^ w := by ring
    rw [hproduct, hhigh, ofInt_sub, ofInt_sub, hnat, hnat, hzero]
    ring
  · rw [if_pos hx, if_pos hx, if_neg hy, if_neg hy]
    have hproduct : ((x.toNat : Int) - 2 ^ w) * y.toNat =
        x.toNat * y.toNat + -y.toNat * 2 ^ w := by ring
    rw [hproduct, hhigh, BitVec.ofInt_neg, hnat, sub_zero, ← sub_eq_add_neg]
  · rw [if_neg hx, if_neg hx, if_pos hy, if_pos hy]
    have hproduct : (x.toNat : Int) * (y.toNat - 2 ^ w) =
        x.toNat * y.toNat + -x.toNat * 2 ^ w := by ring
    rw [hproduct, hhigh, BitVec.ofInt_neg, hnat, sub_zero, ← sub_eq_add_neg]
  · rw [if_neg hx, if_neg hx, if_neg hy, if_neg hy]
    have hproduct : (x.toNat : Int) * y.toNat = x.toNat * y.toNat + 0 * 2 ^ w := by ring
    rw [hproduct, hhigh, sub_zero, sub_zero]
    exact add_zero _

/-- A number is in range when its high part is the sign of its low part. -/
theorem inRange_iff_high (hw : 0 < w) (z : Int) :
    InRange true w z ↔ z / 2 ^ w = if (BitVec.ofInt w z).msb then -1 else 0 := by
  have hpos := two_pow_pos_int w
  have hhalf := two_pow_eq_two_mul_int hw
  have hsplit := Int.mul_ediv_add_emod z (2 ^ w)
  have hlow := Int.emod_nonneg z hpos.ne'
  have hlt := Int.emod_lt_of_pos z hpos
  have hmsb : (BitVec.ofInt w z).msb = true ↔ 2 ^ w ≤ 2 * (z % 2 ^ w) := by
    rw [BitVec.msb_eq_true_iff_two_mul_ge, BitVec.toNat_ofInt, natCast_two_pow]
    have hcast : (((z % 2 ^ w).toNat : Nat) : Int) = z % 2 ^ w := Int.toNat_of_nonneg hlow
    have hpow := natCast_two_pow w
    omega
  rw [InRange, if_pos rfl]
  generalize z % 2 ^ w = low at *
  generalize z / 2 ^ w = high at *
  rw [hhalf] at hsplit hmsb hlt hpos
  generalize (2 : Int) ^ (w - 1) = half at *
  constructor
  · rintro ⟨hge, hle⟩
    have hhigh : high = 0 ∨ high = -1 := by
      have hupper : high < 1 := by nlinarith
      have hlower : -2 < high := by nlinarith
      omega
    rcases hhigh with rfl | rfl
    · rw [if_neg]
      rw [hmsb]
      omega
    · rw [if_pos]
      rw [hmsb]
      omega
  · intro hhigh
    split at hhigh
    · next hsign =>
      rw [hmsb] at hsign
      rw [hhigh] at hsplit
      omega
    · next hsign =>
      rw [hmsb] at hsign
      rw [hhigh] at hsplit
      omega

/-- The high half of a number of twice the width is in range. -/
theorem inRange_high (hw : 0 < w) {z : Int} (hz : InRange true (w * 2) z) :
    InRange true w (z / 2 ^ w) := by
  have hpos := two_pow_pos_int w
  have hpow : (2 : Int) ^ (w * 2 - 1) = 2 ^ (w - 1) * 2 ^ w := by
    rw [← pow_add]
    congr 1
    omega
  rw [InRange, if_pos rfl, hpow] at hz
  rw [InRange, if_pos rfl, Int.le_ediv_iff_mul_le hpos, Int.ediv_lt_iff_lt_mul hpos]
  exact ⟨by rw [Int.neg_mul]; exact hz.1, hz.2⟩

theorem ofInt_inj_of_inRange (hw : 0 < w) {a b : Int} (ha : InRange true w a)
    (hb : InRange true w b) : BitVec.ofInt w a = BitVec.ofInt w b ↔ a = b := by
  rw [← BitVec.toInt_inj, BitVec.toInt_ofInt_eq_self hw ha.1 ha.2,
    BitVec.toInt_ofInt_eq_self hw hb.1 hb.2]

/-- A product is in range when the bits of its high half are all its sign. -/
theorem ofInt_high_eq_iff (hw : 0 < w) {z : Int} (hz : InRange true (w * 2) z) :
    BitVec.ofInt w (z / 2 ^ w) = (if (BitVec.ofInt w z).msb then BitVec.allOnes w else 0) ↔
      InRange true w z := by
  have hhalf := two_pow_pos_int (w - 1)
  have hfill : (if (BitVec.ofInt w z).msb then BitVec.allOnes w else 0) =
      BitVec.ofInt w (if (BitVec.ofInt w z).msb then -1 else 0) := by
    cases (BitVec.ofInt w z).msb
    · rfl
    · rw [if_pos rfl, if_pos rfl, BitVec.ofInt_neg, ← BitVec.neg_one_eq_allOnes]
      rfl
  have hsign : InRange true w (if (BitVec.ofInt w z).msb then -1 else 0) := by
    rw [InRange, if_pos rfl]
    split <;> omega
  rw [inRange_iff_high hw, hfill, ofInt_inj_of_inRange hw (inRange_high hw hz) hsign]

end Crabbit.Lib
