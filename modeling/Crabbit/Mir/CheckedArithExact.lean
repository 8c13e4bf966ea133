/-
  Crabbit.Mir.CheckedArithExact

  The overflow sequences leave the wrapped result and say whether the exact one
  is out of the type's range; the saturating ones clamp it.
-/

import Crabbit.Lib.BitMoves
import Crabbit.Lib.Overflow
import Crabbit.Mir.CheckedArith

namespace Crabbit.Mir

open Crabbit.Lib IntegerType

/-! ## What is to be computed -/

/-- The exact result of an operation. -/
def BinOp.exact : BinOp → Int → Int → Option Int
  | .addWithOverflow, a, b => some (a + b)
  | .subWithOverflow, a, b => some (a - b)
  | .mulWithOverflow, a, b => some (a * b)
  | .other _, _, _ => none

/-- The integers a type represents. -/
def IntegerType.Represents (ty : IntegerType) (z : Int) : Prop :=
  InRange (decide ty.IsSigned) ty.width z

/-- The bits of an integer, and whether it is out of range. -/
def Overflows (ty : IntegerType) (z : Int) (result : Packed ty) : Prop :=
  result.1 = BitVec.ofInt ty.width z ∧
    (result.2 = 0 ∨ result.2 = 1) ∧ (result.2 = 1 ↔ ¬ ty.Represents z)

/-- An integer brought into the range of a signed type. -/
def clamp (width : Nat) (z : Int) : Int := max (-2 ^ (width - 1)) (min z (2 ^ (width - 1) - 1))

theorem IntegerType.value_of_signed {ty : IntegerType} (h : ty.IsSigned) (x : Value ty) :
    ty.value x = x.toInt := if_pos h

theorem IntegerType.value_of_not_signed {ty : IntegerType} (h : ¬ ty.IsSigned) (x : Value ty) :
    ty.value x = x.toNat := if_neg h

theorem represents_of_signed {ty : IntegerType} (h : ty.IsSigned) (z : Int) :
    ty.Represents z ↔ InRange true ty.width z := by
  rw [IntegerType.Represents, decide_eq_true h]

theorem represents_of_not_signed {ty : IntegerType} (h : ¬ ty.IsSigned) (z : Int) :
    ty.Represents z ↔ 0 ≤ z ∧ z < 2 ^ ty.width := by
  rw [IntegerType.Represents, decide_eq_false h, InRange, if_neg Bool.false_ne_true]

/-- The bits of a value are those of the integer it stands for. -/
theorem ofInt_value (ty : IntegerType) (x : Value ty) : BitVec.ofInt ty.width (ty.value x) = x := by
  rw [IntegerType.value]
  split
  · exact BitVec.ofInt_toInt
  · rw [BitVec.ofInt_natCast, BitVec.ofNat_toNat, BitVec.setWidth_eq]

/-- A product of natural numbers is out of range from the power of the width on. -/
theorem not_represents_mul {ty : IntegerType} (hty : ¬ ty.IsSigned) (x y : Value ty) :
    ¬ ty.Represents (ty.value x * ty.value y) ↔ 2 ^ ty.width ≤ x.toNat * y.toNat := by
  rw [represents_of_not_signed hty, value_of_not_signed hty, value_of_not_signed hty,
    ← natCast_two_pow, ← Int.natCast_mul]
  omega

/-- `u128::MAX >> drop` has the bits that are left. -/
theorem shiftRight_allOnes {width drop : Nat} (h : width + drop = 128) :
    (2 ^ 128 - 1) >>> drop = 2 ^ width - 1 := by
  rw [← h, shiftRight_ones]

theorem toNat_lt_two_pow_128 (x : Value u128Ty) : x.toNat < 2 ^ 128 := x.isLt

theorem div_lt_two_pow_128 (x y : Value u128Ty) : x.toNat * y.toNat / 2 ^ 128 < 2 ^ 128 := by
  rw [Nat.div_lt_iff_lt_mul (by decide)]
  exact Nat.mul_lt_mul'' (toNat_lt_two_pow_128 x) (toNat_lt_two_pow_128 y)

section Exact

variable {ops : MirOps} (hops : ops.Documented)
include hops

/-- A packed result says what its flag is. -/
theorem overflows_packOverflowResult {ty : IntegerType} {wrapped : Value ty} {z : Int}
    (hwrapped : wrapped = BitVec.ofInt ty.width z) {flag : Bool}
    (hflag : flag = true ↔ ¬ ty.Represents z) :
    Overflows ty z (packOverflowResult ops wrapped (BitVec.ofBool flag)) := by
  have hcast : @castValueToType ops boolImmediateTy (BitVec.ofBool flag) boolStorageTy =
      if flag then 1 else 0 := by
    rw [castValueToType_eq hops, IntegerType.convert_of_not_signed (by decide)]
    cases flag <;> rfl
  have hsecond : (packOverflowResult ops wrapped (BitVec.ofBool flag)).2 = if flag then 1 else 0 :=
    hcast
  refine ⟨hwrapped, ?_, ?_⟩
  · rw [hsecond]
    cases flag
    · exact Or.inl rfl
    · exact Or.inr rfl
  · rw [hsecond, ← hflag]
    cases flag with
    | false => exact ⟨fun h => absurd h (by decide), fun h => absurd h (by decide)⟩
    | true => exact ⟨fun _ => rfl, fun _ => rfl⟩

/-! ## High halves -/

theorem toNat_constant {width : Nat} {sign : Llvm.Signedness} {bits : Nat} (h : bits < 2 ^ width) :
    (ops.constant ⟨width, sign⟩ bits).toNat = bits := by
  rw [hops.constant]
  exact Nat.mod_eq_of_lt h

theorem toNat_low (x : Value u128Ty) :
    (ops.bitAnd x (ops.constant u128Ty (2 ^ 64 - 1))).toNat = x.toNat % 2 ^ 64 := by
  rw [hops.bitAnd, BitVec.toNat_and, toNat_constant hops (by decide)]
  exact Nat.and_two_pow_sub_one_eq_mod _ _

theorem toNat_high (x : Value u128Ty) :
    (ops.shr x (ops.constant u128Ty 64)).toNat = x.toNat / 2 ^ 64 := by
  have hamount : (ops.constant u128Ty 64).toNat = 64 := toNat_constant hops (by decide)
  rw [hops.shr _ _ (by decide) (by rw [hamount]; decide), hamount, BitVec.toNat_ushiftRight,
    Nat.shiftRight_eq_div_pow]

theorem toNat_mul_of_lt {x y : Value u128Ty} (hx : x.toNat < 2 ^ 64) (hy : y.toNat < 2 ^ 64) :
    (ops.mul x y).toNat = x.toNat * y.toNat := by
  have hproduct : x.toNat * y.toNat < 2 ^ 64 * 2 ^ 64 := Nat.mul_lt_mul'' hx hy
  rw [hops.mul, BitVec.toNat_mul]
  exact Nat.mod_eq_of_lt hproduct

theorem toNat_add_of_lt {x y : Value u128Ty} (h : x.toNat + y.toNat < 2 ^ 128) :
    (ops.add x y).toNat = x.toNat + y.toNat := by
  rw [hops.add, BitVec.toNat_add]
  exact Nat.mod_eq_of_lt h

theorem toNat_sum_of_lt {a b c d : Value u128Ty}
    (h : a.toNat + b.toNat + c.toNat + d.toNat < 2 ^ 128) :
    (ops.add (ops.add (ops.add a b) c) d).toNat = a.toNat + b.toNat + c.toNat + d.toNat := by
  have hab : (ops.add a b).toNat = a.toNat + b.toNat := toNat_add_of_lt hops (by omega)
  have habc : (ops.add (ops.add a b) c).toNat = a.toNat + b.toNat + c.toNat := by
    rw [toNat_add_of_lt hops (by omega), hab]
  rw [toNat_add_of_lt hops (by omega), habc]

/-- The part of the high half that the low halves of the crossed products carry
    into. -/
theorem toNat_carry (crossA crossB lowLow : Value u128Ty) :
    (ops.shr
      (ops.add
        (ops.add (ops.bitAnd crossA (ops.constant u128Ty (2 ^ 64 - 1)))
          (ops.bitAnd crossB (ops.constant u128Ty (2 ^ 64 - 1))))
        (ops.shr lowLow (ops.constant u128Ty 64)))
      (ops.constant u128Ty 64)).toNat =
    (crossA.toNat % 2 ^ 64 + crossB.toNat % 2 ^ 64 + lowLow.toNat / 2 ^ 64) / 2 ^ 64 := by
  have hlowLow := toNat_lt_two_pow_128 lowLow
  have hsum : (ops.add (ops.bitAnd crossA (ops.constant u128Ty (2 ^ 64 - 1)))
      (ops.bitAnd crossB (ops.constant u128Ty (2 ^ 64 - 1)))).toNat =
      crossA.toNat % 2 ^ 64 + crossB.toNat % 2 ^ 64 := by
    rw [toNat_add_of_lt hops, toNat_low hops, toNat_low hops]
    rw [toNat_low hops, toNat_low hops]
    omega
  rw [toNat_high hops, toNat_add_of_lt hops, hsum, toNat_high hops]
  rw [hsum, toNat_high hops]
  omega

/-- `emit_umulh128` is the high half of the exact product. -/
theorem toNat_emitUmulh128 (x y : Value u128Ty) :
    (emitUmulh128 ops x y).toNat = x.toNat * y.toNat / 2 ^ 128 := by
  have hxlt := toNat_lt_two_pow_128 x
  have hylt := toNat_lt_two_pow_128 y
  have hx : x.toNat / 2 ^ 64 < 2 ^ 64 := by omega
  have hy : y.toNat / 2 ^ 64 < 2 ^ 64 := by omega
  have hx' : x.toNat % 2 ^ 64 < 2 ^ 64 := Nat.mod_lt _ (by decide)
  have hy' : y.toNat % 2 ^ 64 < 2 ^ 64 := Nat.mod_lt _ (by decide)
  have hproduct : x.toNat * y.toNat / (2 ^ 64 * 2 ^ 64) < 2 ^ 128 := div_lt_two_pow_128 x y
  have hhalves := mul_div_square (by decide : 0 < 2 ^ 64) x.toNat y.toNat
  -- The four products are exact.
  have hlow := toNat_mul_of_lt hops (x := ops.bitAnd x (ops.constant u128Ty (2 ^ 64 - 1)))
    (y := ops.bitAnd y (ops.constant u128Ty (2 ^ 64 - 1)))
    (by rwa [toNat_low hops]) (by rwa [toNat_low hops])
  have hcrossA := toNat_mul_of_lt hops (x := ops.shr x (ops.constant u128Ty 64))
    (y := ops.bitAnd y (ops.constant u128Ty (2 ^ 64 - 1)))
    (by rwa [toNat_high hops]) (by rwa [toNat_low hops])
  have hcrossB := toNat_mul_of_lt hops (x := ops.bitAnd x (ops.constant u128Ty (2 ^ 64 - 1)))
    (y := ops.shr y (ops.constant u128Ty 64))
    (by rwa [toNat_low hops]) (by rwa [toNat_high hops])
  have hhigh := toNat_mul_of_lt hops (x := ops.shr x (ops.constant u128Ty 64))
    (y := ops.shr y (ops.constant u128Ty 64))
    (by rwa [toNat_high hops]) (by rwa [toNat_high hops])
  rw [toNat_low hops, toNat_low hops] at hlow
  rw [toNat_high hops, toNat_low hops] at hcrossA
  rw [toNat_low hops, toNat_high hops] at hcrossB
  rw [toNat_high hops, toNat_high hops] at hhigh
  rw [← hlow, ← hcrossA, ← hcrossB, ← hhigh, ← toNat_carry hops, ← toNat_high hops,
    ← toNat_high hops] at hhalves
  -- No partial sum exceeds the whole, which fits.
  rw [hhalves] at hproduct
  rw [emitUmulh128, toNat_sum_of_lt hops hproduct]
  exact hhalves.symm

/-- `emit_sign_mask128` is all ones for a number with the top bit. -/
theorem emitSignMask128_eq (x : Value u128Ty) :
    emitSignMask128 ops x = if x.msb then BitVec.allOnes 128 else 0 := by
  have hx := toNat_lt_two_pow_128 x
  have hamount : (ops.constant u128Ty 127).toNat = 127 := toNat_constant hops (by decide)
  have hmsb : x.msb = decide (2 ^ 127 ≤ x.toNat) := BitVec.msb_eq_decide x
  have hshift : ops.shr x (ops.constant u128Ty 127) = if x.msb then 1#128 else 0#128 := by
    apply BitVec.eq_of_toNat_eq
    rw [hops.shr _ _ (by decide) (by rw [hamount]; decide), hamount, BitVec.toNat_ushiftRight,
      Nat.shiftRight_eq_div_pow, hmsb]
    split
    · next h =>
      rw [decide_eq_true_iff] at h
      show x.toNat / 2 ^ 127 = 1
      omega
    · next h =>
      rw [decide_eq_true_iff] at h
      show x.toNat / 2 ^ 127 = 0
      omega
  rw [emitSignMask128, hshift, hops.sub, hops.constant]
  cases x.msb <;> decide

/-- A mask of all ones or none keeps or clears. -/
theorem bitAnd_emitSignMask128 (x y : Value u128Ty) :
    ops.bitAnd (emitSignMask128 ops x) y = if x.msb then y else 0 := by
  rw [hops.bitAnd, emitSignMask128_eq hops]
  cases x.msb
  · exact BitVec.zero_and
  · exact BitVec.allOnes_and

/-! ## Unsigned operands -/

theorem add_eq_ofInt {ty : IntegerType} (x y : Value ty) :
    ops.add x y = BitVec.ofInt ty.width (ty.value x + ty.value y) := by
  rw [hops.add, BitVec.ofInt_add, ofInt_value, ofInt_value]

theorem sub_eq_ofInt {ty : IntegerType} (x y : Value ty) :
    ops.sub x y = BitVec.ofInt ty.width (ty.value x - ty.value y) := by
  rw [hops.sub, ofInt_sub, ofInt_value, ofInt_value]

theorem mul_eq_ofInt {ty : IntegerType} (x y : Value ty) :
    ops.mul x y = BitVec.ofInt ty.width (ty.value x * ty.value y) := by
  rw [hops.mul, BitVec.ofInt_mul, ofInt_value, ofInt_value]

theorem overflows_unsigned_add {ty : IntegerType} (hty : ¬ ty.IsSigned) (x y : Value ty) :
    Overflows ty (ty.value x + ty.value y)
      (packOverflowResult ops (ops.add x y) (ops.lt (ops.add x y) x)) := by
  have hx := x.isLt
  have hy := y.isLt
  rw [hops.lt]
  apply overflows_packOverflowResult hops (add_eq_ofInt hops x y)
  rw [IntegerType.less, if_neg hty, hops.add, BitVec.ult, decide_eq_true_iff, BitVec.toNat_add,
    represents_of_not_signed hty, value_of_not_signed hty, value_of_not_signed hty,
    ← natCast_two_pow]
  by_cases h : x.toNat + y.toNat < 2 ^ ty.width
  · rw [Nat.mod_eq_of_lt h]
    omega
  · rw [Nat.mod_eq_sub_mod (by omega), Nat.mod_eq_of_lt (by omega)]
    omega

theorem overflows_unsigned_sub {ty : IntegerType} (hty : ¬ ty.IsSigned) (x y : Value ty) :
    Overflows ty (ty.value x - ty.value y)
      (packOverflowResult ops (ops.sub x y) (ops.lt x y)) := by
  have hx := x.isLt
  have hy := y.isLt
  rw [hops.lt]
  apply overflows_packOverflowResult hops (sub_eq_ofInt hops x y)
  rw [IntegerType.less, if_neg hty, BitVec.ult, decide_eq_true_iff,
    represents_of_not_signed hty, value_of_not_signed hty, value_of_not_signed hty,
    ← natCast_two_pow]
  omega

theorem overflows_unsigned_mul128 (sign : Llvm.Signedness)
    (hty : ¬ IntegerType.IsSigned ⟨128, sign⟩) (x y : Value ⟨128, sign⟩) :
    ∃ result, lowerUnsignedMulOverflow ops x y = .ok result ∧ Overflows ⟨128, sign⟩
      (IntegerType.value ⟨128, sign⟩ x * IntegerType.value ⟨128, sign⟩ y) result := by
  rw [lowerUnsignedMulOverflow, dif_pos rfl]
  refine ⟨_, rfl, ?_⟩
  rw [BitVec.cast_eq, BitVec.cast_eq, hops.ne]
  apply overflows_packOverflowResult hops (mul_eq_ofInt hops x y)
  rw [not_represents_mul hty, decide_eq_true_iff, Ne, ← BitVec.toNat_inj, toNat_emitUmulh128 hops,
    toNat_constant hops (by decide)]
  show ¬ x.toNat * y.toNat / 2 ^ 128 = 0 ↔ 2 ^ 128 ≤ x.toNat * y.toNat
  omega

theorem overflows_unsigned_mul_narrow {ty : IntegerType} (hty : ¬ ty.IsSigned)
    (hw : ty.width ≤ 64) (x y : Value ty) :
    ∃ result, lowerUnsignedMulOverflow ops x y = .ok result ∧
      Overflows ty (ty.value x * ty.value y) result := by
  have hcast : ∀ v : Value ty, castValueToType ops v ⟨ty.width * 2, .unsigned⟩ =
      v.setWidth (ty.width * 2) := by
    intro v
    rw [castValueToType_eq hops, IntegerType.convert_of_not_signed hty]
  have hback : ∀ v : Value ⟨ty.width * 2, .unsigned⟩, castValueToType ops v ty =
      v.setWidth ty.width := by
    intro v
    rw [castValueToType_eq hops, IntegerType.convert_of_not_signed (by intro h; cases h)]
  have hpow : 2 ^ ty.width ≤ 2 ^ (ty.width * 2) := Nat.pow_le_pow_right (by omega) (by omega)
  have hpos := Nat.two_pow_pos ty.width
  rw [lowerUnsignedMulOverflow, dif_neg (by omega), if_neg (by omega)]
  refine ⟨_, rfl, ?_⟩
  rw [hops.gt, hops.mul, hcast, hcast, hback]
  apply overflows_packOverflowResult hops
  · apply BitVec.eq_of_toNat_eq
    rw [BitVec.toNat_setWidth, toNat_setWidth_mul, value_of_not_signed hty,
      value_of_not_signed hty, ← Int.natCast_mul, BitVec.ofInt_natCast, BitVec.toNat_ofNat]
  · rw [not_represents_mul hty, IntegerType.less, if_neg (by intro h; cases h), BitVec.ult,
      decide_eq_true_iff, toNat_setWidth_mul, shiftRight_allOnes (by omega : ty.width + _ = 128),
      toNat_constant hops (by omega)]
    omega

/-! ## Signed operands -/

/-- A comparison with zero reads the sign. -/
theorem lt_zero {ty : IntegerType} (hty : ty.IsSigned) (x : Value ty) :
    ops.lt x (ops.constant ty 0) = BitVec.ofBool x.msb := by
  rw [hops.lt, hops.constant, IntegerType.less, if_pos hty]
  exact congrArg BitVec.ofBool BitVec.slt_zero_eq_msb

theorem msb_overflowSign_add {ty : IntegerType} (x y : Value ty) :
    (overflowSign ops true x y (ops.add x y)).msb = x.saddOverflow y := by
  rw [overflowSign, if_pos rfl, hops.bitAnd, hops.bitXor, hops.bitXor, hops.add, msb_add_sign]

theorem msb_overflowSign_sub {ty : IntegerType} (x y : Value ty) :
    (overflowSign ops false x y (ops.sub x y)).msb = x.ssubOverflow y := by
  rw [overflowSign, if_neg Bool.false_ne_true, hops.bitAnd, hops.bitXor, hops.bitXor, hops.sub,
    msb_sub_sign]

theorem overflows_signed_add {ty : IntegerType} (hty : ty.IsSigned) (x y : Value ty) :
    Overflows ty (ty.value x + ty.value y)
      (packOverflowResult ops (ops.add x y)
        (ops.lt (overflowSign ops true x y (ops.add x y)) (ops.constant ty 0))) := by
  rw [lt_zero hops hty, msb_overflowSign_add hops]
  apply overflows_packOverflowResult hops (add_eq_ofInt hops x y)
  rw [represents_of_signed hty, value_of_signed hty, value_of_signed hty, saddOverflow_iff]

theorem overflows_signed_sub {ty : IntegerType} (hty : ty.IsSigned) (x y : Value ty) :
    Overflows ty (ty.value x - ty.value y)
      (packOverflowResult ops (ops.sub x y)
        (ops.lt (overflowSign ops false x y (ops.sub x y)) (ops.constant ty 0))) := by
  rw [lt_zero hops hty, msb_overflowSign_sub hops]
  apply overflows_packOverflowResult hops (sub_eq_ofInt hops x y)
  rw [represents_of_signed hty, value_of_signed hty, value_of_signed hty, ssubOverflow_iff]

theorem overflows_signed_mul_narrow {ty : IntegerType} (hty : ty.IsSigned)
    (hpos : 0 < ty.width) (hw : ty.width ≤ 64) (x y : Value ty) :
    ∃ result, lowerSignedMulOverflow ops x y = .ok result ∧
      Overflows ty (ty.value x * ty.value y) result := by
  have hcast : ∀ v : Value ty, castValueToType ops v ⟨ty.width * 2, .signed⟩ =
      v.signExtend (ty.width * 2) := by
    intro v
    rw [castValueToType_eq hops, IntegerType.convert_of_signed hty]
  have hrange := inRange_mul hpos (inRange_toInt x) (inRange_toInt y)
  have hback : @castValueToType ops ⟨ty.width * 2, .signed⟩
      (BitVec.ofInt (ty.width * 2) (x.toInt * y.toInt)) ty =
      BitVec.ofInt ty.width (x.toInt * y.toInt) := by
    rw [castValueToType_eq hops, IntegerType.convert_of_signed
      (show IntegerType.IsSigned ⟨ty.width * 2, .signed⟩ from rfl)]
    exact congrArg (BitVec.ofInt ty.width)
      (BitVec.toInt_ofInt_eq_self (show 0 < ty.width * 2 by omega) hrange.1 hrange.2)
  rw [lowerSignedMulOverflow, if_neg (by omega), if_neg (by omega)]
  refine ⟨_, rfl, ?_⟩
  rw [hops.ne, hops.mul, hcast, hcast, signExtend_mul, hback, hcast, value_of_signed hty,
    value_of_signed hty]
  apply overflows_packOverflowResult hops rfl
  rw [decide_eq_true_iff, Ne, signExtend_ofInt_eq_iff hpos (by omega) hrange,
    represents_of_signed hty]

theorem overflows_signed_mul128 (sign : Llvm.Signedness)
    (hty : IntegerType.IsSigned ⟨128, sign⟩) (x y : Value ⟨128, sign⟩) :
    ∃ result, lowerSignedMulOverflow ops x y = .ok result ∧ Overflows ⟨128, sign⟩
      (IntegerType.value ⟨128, sign⟩ x * IntegerType.value ⟨128, sign⟩ y) result := by
  have hcast : ∀ v : Value ⟨128, sign⟩, castValueToType ops v u128Ty = v := by
    intro v
    rw [castValueToType_eq hops, IntegerType.convert_of_signed hty]
    exact BitVec.signExtend_eq v
  rw [lowerSignedMulOverflow, if_pos rfl]
  refine ⟨_, rfl, ?_⟩
  rw [lowerSignedMulOverflow128, hops.ne, hcast, hcast, hcast]
  apply overflows_packOverflowResult hops (mul_eq_ofInt hops x y)
  have hproduct : BitVec.ofInt 128 (x.toInt * y.toInt) = ops.mul x y := by
    rw [mul_eq_ofInt hops, value_of_signed hty, value_of_signed hty]
  have hhigh : ops.sub (ops.sub (emitUmulh128 ops x y) (ops.bitAnd (emitSignMask128 ops x) y))
      (ops.bitAnd (emitSignMask128 ops y) x) =
      BitVec.ofInt 128 (x.toInt * y.toInt / 2 ^ 128) := by
    have humulh : emitUmulh128 ops x y = BitVec.ofNat 128 (x.toNat * y.toNat / 2 ^ 128) := by
      apply BitVec.eq_of_toNat_eq
      rw [toNat_emitUmulh128 hops, BitVec.toNat_ofNat,
        Nat.mod_eq_of_lt (div_lt_two_pow_128 x y)]
    rw [hops.sub, hops.sub, bitAnd_emitSignMask128 hops, bitAnd_emitSignMask128 hops, humulh]
    exact (ofInt_mul_div x y).symm
  rw [represents_of_signed hty, value_of_signed hty, value_of_signed hty, hhigh,
    emitSignMask128_eq hops, ← hproduct, decide_eq_true_iff, Ne]
  exact not_congr (ofInt_high_eq_iff (by decide)
    (inRange_mul (by decide) (inRange_toInt x) (inRange_toInt y)))

/-! ## Saturation -/

/-- A sign-aware shift by the width less one is a mask of the sign. -/
theorem signAwareShr_topBit {ty : IntegerType} (hty : ty.IsSigned) (hpos : 0 < ty.width)
    (x : Value ty) : ops.signAwareShr x (ops.constant ty (ty.width - 1)) =
      if x.msb then BitVec.allOnes ty.width else 0#(ty.width) := by
  have hlt : ty.width - 1 < 2 ^ ty.width :=
    lt_of_le_of_lt (Nat.sub_le _ _) ty.width.lt_two_pow_self
  have hamount : (ops.constant ty (ty.width - 1)).toNat = ty.width - 1 :=
    toNat_constant hops hlt
  rw [hops.signAwareShr _ _ (by omega), hamount, IntegerType.shiftRight, if_pos hty,
    sshiftRight_sign hpos]

/-- The sequence picks between the wrapped result and the bound on the side of
    the first operand. -/
theorem lowerSignedSaturating_eq {ty : IntegerType} (hty : ty.IsSigned) (hpos : 0 < ty.width)
    (hw : ty.width ≤ 128) (isAdd : Bool) (x y : Value ty) {z : Int} {wrapped : Value ty}
    (hwrapped : (if isAdd then ops.add x y else ops.sub x y) = wrapped)
    (hz : wrapped = BitVec.ofInt ty.width z)
    (hoverflow : (overflowSign ops isAdd x y wrapped).msb = true ↔ ¬ InRange true ty.width z)
    (hside : ¬ InRange true ty.width z → (x.toInt < 0 ↔ z < 0)) :
    lowerSignedSaturating ops isAdd x y = BitVec.ofInt ty.width (clamp ty.width z) := by
  have hhalf := two_pow_pos_int (ty.width - 1)
  have hones : ops.constant ty ((2 ^ 128 - 1) >>> (128 - ty.width)) = BitVec.allOnes ty.width := by
    rw [shiftRight_allOnes (by omega : ty.width + _ = 128), hops.constant]
    apply BitVec.eq_of_toNat_eq
    rw [BitVec.toNat_ofNat, BitVec.toNat_allOnes, Nat.mod_eq_of_lt]
    exact Nat.sub_one_lt_of_lt (Nat.two_pow_pos _)
  have hmax : ops.constant ty ((2 ^ 128 - 1) >>> (129 - ty.width)) =
      BitVec.ofInt ty.width (2 ^ (ty.width - 1) - 1) := by
    rw [shiftRight_allOnes (by omega : ty.width - 1 + _ = 128), hops.constant, ofInt_max]
  rw [lowerSignedSaturating, hwrapped, signAwareShr_topBit hops hty hpos,
    signAwareShr_topBit hops hty hpos, hones, hmax]
  simp only [hops.bitXor, hops.bitAnd, hops.bitOr]
  by_cases h : InRange true ty.width z
  · have hclamp : clamp ty.width z = z := by
      rw [InRange, if_pos rfl] at h
      rw [clamp]
      omega
    rw [if_neg (fun hmsb => hoverflow.mp hmsb h), hclamp, ← hz, BitVec.zero_xor,
      BitVec.and_allOnes, BitVec.and_zero, BitVec.or_zero]
  · have hclamp : clamp ty.width z = if z < 0 then -2 ^ (ty.width - 1)
        else 2 ^ (ty.width - 1) - 1 := by
      rw [InRange, if_pos rfl] at h
      rw [clamp]
      split <;> omega
    rw [if_pos (hoverflow.mpr h), BitVec.xor_self, BitVec.and_zero, BitVec.zero_or,
      BitVec.and_allOnes, BitVec.msb_eq_toInt, hclamp]
    by_cases hneg : z < 0
    · rw [if_pos (decide_eq_true ((hside h).mpr hneg)), if_pos hneg, ofInt_max, ofInt_min,
        BitVec.allOnes_xor]
    · rw [if_neg (fun hx => hneg ((hside h).mp (of_decide_eq_true hx))), if_neg hneg,
        BitVec.zero_xor]

/-- Signed saturating addition clamps the exact sum. -/
theorem lowerSignedSaturating_add {ty : IntegerType} (hty : ty.IsSigned) (hpos : 0 < ty.width)
    (hw : ty.width ≤ 128) (x y : Value ty) :
    lowerSignedSaturating ops true x y =
      BitVec.ofInt ty.width (clamp ty.width (ty.value x + ty.value y)) := by
  have hx := inRange_toInt x
  have hy := inRange_toInt y
  rw [value_of_signed hty, value_of_signed hty]
  apply lowerSignedSaturating_eq hops hty hpos hw true x y (if_pos rfl)
  · rw [add_eq_ofInt hops, value_of_signed hty, value_of_signed hty]
  · rw [msb_overflowSign_add hops, saddOverflow_iff]
  · intro h
    rw [InRange, if_pos rfl] at hx hy h
    omega

/-- Signed saturating subtraction clamps the exact difference. -/
theorem lowerSignedSaturating_sub {ty : IntegerType} (hty : ty.IsSigned) (hpos : 0 < ty.width)
    (hw : ty.width ≤ 128) (x y : Value ty) :
    lowerSignedSaturating ops false x y =
      BitVec.ofInt ty.width (clamp ty.width (ty.value x - ty.value y)) := by
  have hx := inRange_toInt x
  have hy := inRange_toInt y
  rw [value_of_signed hty, value_of_signed hty]
  apply lowerSignedSaturating_eq hops hty hpos hw false x y (if_neg Bool.false_ne_true)
  · rw [sub_eq_ofInt hops, value_of_signed hty, value_of_signed hty]
  · rw [msb_overflowSign_sub hops, ssubOverflow_iff]
  · intro h
    rw [InRange, if_pos rfl] at hx hy h
    omega

end Exact

/-! ## The sequences are exact -/

/-- The overflow sequence of an operation at a width of the language. -/
theorem overflows_lowerOverflowBinary {ops : MirOps} (hops : ops.Documented) {ty : IntegerType}
    (hw : ty.width ∈ [8, 16, 32, 64, 128]) (op : BinOp) (x y : Value ty) {z : Int}
    (hz : op.exact (ty.value x) (ty.value y) = some z) :
    ∃ result, lowerOverflowBinary ops op x y = .ok result ∧ Overflows ty z result := by
  have hwidth : 0 < ty.width ∧ (ty.width ≤ 64 ∨ ty.width = 128) := by
    simp only [List.mem_cons, List.not_mem_nil, or_false] at hw
    omega
  obtain ⟨hpos, hwidth⟩ := hwidth
  rw [lowerOverflowBinary]
  by_cases hty : ty.IsSigned
  · rw [if_neg (not_not_intro hty)]
    cases op with
    | addWithOverflow =>
      obtain rfl := Option.some.inj hz
      exact ⟨_, rfl, overflows_signed_add hops hty x y⟩
    | subWithOverflow =>
      obtain rfl := Option.some.inj hz
      exact ⟨_, rfl, overflows_signed_sub hops hty x y⟩
    | mulWithOverflow =>
      obtain rfl := Option.some.inj hz
      rcases hwidth with hnarrow | hwide
      · exact overflows_signed_mul_narrow hops hty hpos hnarrow x y
      · obtain ⟨width, sign⟩ := ty
        obtain rfl : width = 128 := hwide
        exact overflows_signed_mul128 hops sign hty x y
    | other name => cases hz
  · rw [if_pos hty]
    cases op with
    | addWithOverflow =>
      obtain rfl := Option.some.inj hz
      exact ⟨_, rfl, overflows_unsigned_add hops hty x y⟩
    | subWithOverflow =>
      obtain rfl := Option.some.inj hz
      exact ⟨_, rfl, overflows_unsigned_sub hops hty x y⟩
    | mulWithOverflow =>
      obtain rfl := Option.some.inj hz
      rcases hwidth with hnarrow | hwide
      · exact overflows_unsigned_mul_narrow hops hty hnarrow x y
      · obtain ⟨width, sign⟩ := ty
        obtain rfl : width = 128 := hwide
        exact overflows_unsigned_mul128 hops sign hty x y
    | other name => cases hz

/-- Checked arithmetic leaves the wrapped result and says whether the exact one
    is out of range, saturating arithmetic clamps it, and `emit_umulh128` is the
    high half of the exact product. -/
theorem checkedArith_exact {ops : MirOps} (hops : ops.Documented) :
    (∀ (ty : IntegerType), ty.width ∈ [8, 16, 32, 64, 128] → ∀ (x y : Value ty),
      (∀ (op : BinOp) (z : Int), op.exact (ty.value x) (ty.value y) = some z →
        ∃ result, lowerOverflowBinary ops op x y = .ok result ∧ Overflows ty z result) ∧
      (ty.IsSigned →
        lowerSignedSaturating ops true x y =
          BitVec.ofInt ty.width (clamp ty.width (ty.value x + ty.value y)) ∧
        lowerSignedSaturating ops false x y =
          BitVec.ofInt ty.width (clamp ty.width (ty.value x - ty.value y)))) ∧
    ∀ x y : Value u128Ty, (emitUmulh128 ops x y).toNat = x.toNat * y.toNat / 2 ^ 128 := by
  refine ⟨fun ty hw x y => ⟨fun op z hz => overflows_lowerOverflowBinary hops hw op x y hz,
    fun hty => ?_⟩, toNat_emitUmulh128 hops⟩
  have hpos : 0 < ty.width ∧ ty.width ≤ 128 := by
    simp only [List.mem_cons, List.not_mem_nil, or_false] at hw
    omega
  exact ⟨lowerSignedSaturating_add hops hty hpos.1 hpos.2 x y,
    lowerSignedSaturating_sub hops hty hpos.1 hpos.2 x y⟩

/-- The operations as documented: `127 + 1` at eight bits overflows to `-128`. -/
theorem checkedArith_exact_reference :
    ∃ result, @lowerOverflowBinary MirOps.reference ⟨8, .signed⟩ .addWithOverflow 127 1 =
      .ok result ∧ Overflows ⟨8, .signed⟩ 128 result :=
  ((checkedArith_exact MirOps.reference_documented).1 ⟨8, .signed⟩ (by decide) 127 1).1
    .addWithOverflow 128 (by decide)

end Crabbit.Mir
