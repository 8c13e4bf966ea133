/-
  Crabbit.Mir.BitIntrinsicsExact

  The sequences for the bit intrinsics against the intrinsics' definitions.  Two
  of them go wrong on narrow operands: the ones of a negative number are counted
  at 64 bits, and so are the leading zeros of zero.
-/

import Crabbit.Lib.BitCounts
import Crabbit.Lib.BitMoves
import Crabbit.Mir.BitIntrinsics

namespace Crabbit.Mir

open Crabbit.Lib IntegerType

/-! ## What is to be computed -/

/-- The type of an intrinsic's result. -/
def BitIntrinsic.resultTy (name : BitIntrinsic) (ty : IntegerType) : IntegerType :=
  match name with
  | .ctpop | .cttz | .ctlz => u32Ty
  | .bswap | .bitreverse | .rotateLeft | .rotateRight => ty

/-- The intrinsics' results on the operand's bits. -/
def BitIntrinsic.defined (name : BitIntrinsic) {ty : IntegerType} (x : Value ty) (shift : Nat) :
    Value (name.resultTy ty) :=
  match name with
  | .ctpop => BitVec.ofNat 32 x.cpop.toNat
  | .cttz => BitVec.ofNat 32 x.ctz.toNat
  | .ctlz => BitVec.ofNat 32 x.clz.toNat
  | .bswap => swapBytes x
  | .bitreverse => x.reverse
  | .rotateLeft => x.rotateLeft shift
  | .rotateRight => x.rotateRight shift

section Exact

variable {ops : MirOps} (hops : ops.Documented)
include hops

/-! ## Shifts and casts -/

theorem shr_constant {width s : Nat} (x : Value ⟨width, .unsigned⟩) (hs : s < width) :
    ops.shr x (ops.constant ⟨width, .unsigned⟩ s) = x >>> s := by
  have hamount : (ops.constant ⟨width, .unsigned⟩ s).toNat = s := by
    rw [hops.constant]
    exact Nat.mod_eq_of_lt (lt_trans hs Nat.lt_two_pow_self)
  rw [hops.shr x _ (by intro h; cases h) (by rw [hamount]; exact hs), hamount]

theorem shl_constant {width s : Nat} (x : Value ⟨width, .unsigned⟩) (hs : s < width) :
    ops.shl x (ops.constant ⟨width, .unsigned⟩ s) = x <<< s := by
  have hamount : (ops.constant ⟨width, .unsigned⟩ s).toNat = s := by
    rw [hops.constant]
    exact Nat.mod_eq_of_lt (lt_trans hs Nat.lt_two_pow_self)
  rw [hops.shl x _ (by rw [hamount]; exact hs), hamount]

/-- A cast of an unsigned value. -/
theorem cast_unsigned {width : Nat} (x : Value ⟨width, .unsigned⟩) (target : IntegerType) :
    castValueToType ops x target = x.setWidth target.width := by
  rw [castValueToType_eq hops, convert_of_not_signed (by intro h; cases h)]

/-- A cast keeps the low bits. -/
theorem getLsbD_cast {ty : IntegerType} (x : Value ty) (target : IntegerType) {i : Nat}
    (hi : i < ty.width) (hi' : i < target.width) :
    (castValueToType ops x target).getLsbD i = x.getLsbD i := by
  rw [castValueToType_eq hops, IntegerType.convert]
  split
  · rw [BitVec.getLsbD_signExtend, decide_eq_true hi', if_pos hi, Bool.true_and]
  · rw [BitVec.getLsbD_setWidth, decide_eq_true hi', Bool.true_and]

/-- An operand of at most 64 bits is the low part of what it is widened to. -/
theorem widenToU64_eq {ty : IntegerType} (hw : ty.width ≤ 64) (x : Value ty) :
    widenToU64 ops x = .ok (castValueToType ops x u64Ty) ∧
      (castValueToType ops x u64Ty).setWidth ty.width = x := by
  constructor
  · rw [widenToU64, if_neg (by omega)]
  · apply BitVec.eq_of_getLsbD_eq
    intro i hi
    rw [BitVec.getLsbD_setWidth, decide_eq_true hi, Bool.true_and,
      getLsbD_cast hops x u64Ty hi (show i < 64 by omega)]

/-- The halves of a 128-bit value. -/
theorem append_splitU128Halves {sign : Llvm.Signedness} (x : Value ⟨128, sign⟩) :
    ((splitU128Halves ops x).2 ++ (splitU128Halves ops x).1 : BitVec (64 + 64)) = x := by
  apply BitVec.eq_of_getLsbD_eq
  intro i hi
  have hlt : i < 128 := hi
  rw [BitVec.getLsbD_append, splitU128Halves, cast_unsigned hops, cast_unsigned hops,
    shr_constant hops _ (by decide), BitVec.getLsbD_setWidth, BitVec.getLsbD_setWidth,
    BitVec.getLsbD_ushiftRight]
  split
  · next hlow =>
    rw [getLsbD_cast hops x u128Ty hi hi, decide_eq_true hlow, Bool.true_and]
  · next hhigh =>
    have hge : 64 ≤ i := Nat.le_of_not_lt hhigh
    rw [show 64 + (i - 64) = i by omega, getLsbD_cast hops x u128Ty hi hi,
      decide_eq_true (show i - 64 < 64 by omega), Bool.true_and]

/-! ## Counts -/

theorem toNat_emitPopcount64 (x : Value u64Ty) :
    (emitPopcount64 ops x).toNat = bitCount 64 x.toNat := by
  rw [emitPopcount64, shr_constant hops _ (by decide), shr_constant hops _ (by decide),
    shr_constant hops _ (by decide), shr_constant hops _ (by decide)]
  simp only [hops.constant, hops.bitAnd, hops.add, hops.sub, hops.mul]
  have hpairs : (x - (x >>> 1 &&& 0x5555555555555555#64)).toNat = countPairs 8 x.toNat := by
    rw [BitVec.toNat_sub_of_le, BitVec.toNat_and, BitVec.toNat_ushiftRight]
    · rfl
    · rw [BitVec.le_def, BitVec.toNat_and, BitVec.toNat_ushiftRight, Nat.shiftRight_eq_div_pow]
      exact le_trans Nat.and_le_left (Nat.div_le_self _ _)
  generalize x - (x >>> 1 &&& 0x5555555555555555#64) = pairs at *
  have hle33 : ∀ n : Nat, n &&& 0x3333333333333333 ≤ 0x3333333333333333 :=
    fun n => Nat.and_le_right
  have hnibbles : ((pairs &&& 0x3333333333333333#64) +
      (pairs >>> 2 &&& 0x3333333333333333#64)).toNat = countNibbles 8 (countPairs 8 x.toNat) := by
    rw [BitVec.toNat_add, BitVec.toNat_and, BitVec.toNat_and, BitVec.toNat_ushiftRight, hpairs]
    exact Nat.mod_eq_of_lt (lt_of_le_of_lt (Nat.add_le_add (hle33 _) (hle33 _)) (by decide))
  have hnibblesLe : countNibbles 8 (countPairs 8 x.toNat) ≤ 0x6666666666666666 :=
    Nat.add_le_add (hle33 _) (hle33 _)
  generalize (pairs &&& 0x3333333333333333#64) + (pairs >>> 2 &&& 0x3333333333333333#64) =
    nibbles at *
  have hbytes : ((nibbles + nibbles >>> 4) &&& 0x0f0f0f0f0f0f0f0f#64).toNat =
      countBytes 8 (countNibbles 8 (countPairs 8 x.toNat)) := by
    rw [BitVec.toNat_and, BitVec.toNat_add, BitVec.toNat_ushiftRight, hnibbles, Nat.mod_eq_of_lt]
    · rfl
    · rw [Nat.shiftRight_eq_div_pow]
      show _ < 2 ^ 64
      omega
  rw [BitVec.toNat_ushiftRight, BitVec.toNat_mul, hbytes, Nat.shiftRight_eq_div_pow,
    ← byteCounts_sum]
  rfl

/-- A count keeps its value in the destination's type. -/
theorem cast_count {x : Value u64Ty} {n : Nat} (h : x.toNat = n) :
    castValueToType ops x u32Ty = BitVec.ofNat 32 n := by
  rw [cast_unsigned hops, ← h, BitVec.ofNat_toNat]

theorem toNat_emitCttz64 (x : Value u64Ty) {width : Nat} (hw : width ≤ 64) :
    (emitCttz64 ops x width).toNat = (x.setWidth width).ctz.toNat := by
  have hctz := toNat_ctz_setWidth hw x
  have hle := toNat_ctz_le (x.setWidth width)
  rw [emitCttz64, toNat_emitPopcount64 hops]
  simp only [hops.constant, hops.bitAnd, hops.sub]
  have hbelow : ((x &&& 0#64 - x) - 1#64).toNat = 2 ^ x.ctz.toNat - 1 := by
    rw [BitVec.zero_sub, toNat_and_neg_sub_one]
  have hmask : (BitVec.ofNat 64 ((2 ^ 64 - 1) >>> (64 - width))).toNat = 2 ^ width - 1 := by
    have hones := shiftRight_ones width (64 - width)
    rw [Nat.add_sub_of_le hw] at hones
    have hlt : 2 ^ width - 1 < 2 ^ 64 := lt_of_lt_of_le
      (Nat.sub_one_lt_of_lt (Nat.two_pow_pos width)) (Nat.pow_le_pow_right (by decide) hw)
    rw [hones, BitVec.toNat_ofNat, Nat.mod_eq_of_lt hlt]
  have hmasked : (((x &&& 0#64 - x) - 1#64) &&&
      BitVec.ofNat 64 ((2 ^ 64 - 1) >>> (64 - width))).toNat =
      2 ^ (x.setWidth width).ctz.toNat - 1 := by
    rw [BitVec.toNat_and, hbelow, hmask, hctz]
    apply Nat.eq_of_testBit_eq
    intro i
    rw [Nat.testBit_and, Nat.testBit_two_pow_sub_one, Nat.testBit_two_pow_sub_one,
      Nat.testBit_two_pow_sub_one, ← Bool.decide_and, decide_eq_decide, Nat.lt_min]
  rw [hmasked]
  exact bitCount_low (le_trans hle hw)

/-- The highest set bit copied downwards: the ones of the places up to it. -/
theorem covers_smear (x : Value u64Ty) : Covers x (smear ops x) 64 := by
  have hstep : ∀ (y : Value u64Ty) (n : Nat), n < 64 → Covers x y n →
      Covers x (ops.bitOr y (ops.shr y (ops.constant u64Ty n))) (n + n) := by
    intro y n hn h
    rw [shr_constant hops y hn, hops.bitOr]
    exact h.step
  rw [smear]
  simp only [List.foldl_cons, List.foldl_nil]
  exact hstep _ 32 (by decide) (hstep _ 16 (by decide) (hstep _ 8 (by decide)
    (hstep _ 4 (by decide) (hstep _ 2 (by decide) (hstep _ 1 (by decide) (Covers.self x))))))

/-- The ones above the highest set bit, counted. -/
theorem toNat_popcount_inverted (x : Value u64Ty) {k : Nat} (hk : k ≤ 64) (hlt : x.toNat < 2 ^ k)
    (hge : 0 < k → 2 ^ (k - 1) ≤ x.toNat) :
    (emitPopcount64 ops (ops.bitXor (smear ops x) (ops.constant u64Ty (2 ^ 64 - 1)))).toNat =
      64 - k := by
  have hsmear : (smear ops x).toNat = 2 ^ k - 1 :=
    (covers_smear hops x).toNat_eq (Nat.le_refl 64) hlt hge
  have hones : ops.constant u64Ty (2 ^ 64 - 1) = BitVec.allOnes 64 := hops.constant _ _
  have hpos := Nat.two_pow_pos k
  have hinverted : (~~~ smear ops x).toNat = 2 ^ 64 - 2 ^ k := by
    rw [BitVec.toNat_not, hsmear]
    show 2 ^ 64 - 1 - (2 ^ k - 1) = 2 ^ 64 - 2 ^ k
    omega
  rw [toNat_emitPopcount64 hops, hops.bitXor, hones, BitVec.xor_allOnes, hinverted,
    bitCount_high hk]

/-- The operand's top bit is brought to the top of the word. -/
theorem toNat_aligned (x : Value u64Ty) {width : Nat} (hpos : 0 < width) (hw : width ≤ 64) :
    (if width < 64 then ops.shl x (ops.constant u64Ty (64 - width)) else x).toNat =
      (x.setWidth width).toNat * 2 ^ (64 - width) := by
  rw [BitVec.toNat_setWidth]
  split
  · next hlt =>
    have hpow : 2 ^ 64 = 2 ^ width * 2 ^ (64 - width) := by
      rw [← Nat.pow_add, Nat.add_sub_of_le hw]
    rw [shl_constant hops x (show 64 - width < 64 by omega), BitVec.toNat_shiftLeft,
      Nat.shiftLeft_eq]
    show x.toNat * 2 ^ (64 - width) % 2 ^ 64 = _
    rw [hpow, Nat.mul_mod_mul_right]
  · next hge =>
    obtain rfl : width = 64 := by omega
    rw [Nat.sub_self, Nat.pow_zero, Nat.mul_one]
    exact (Nat.mod_eq_of_lt x.isLt).symm

/-- Leading zeros are counted at the operand's width, save that all of the 64
    bits are counted for zero. -/
theorem toNat_emitCtlz64 (x : Value u64Ty) {width : Nat} (hwidth : 0 < width) (hw : width ≤ 64) :
    (emitCtlz64 ops x width).toNat =
      if x.setWidth width = 0#(width) then 64 else (x.setWidth width).clz.toNat := by
  have haligned := toNat_aligned hops x hwidth hw
  rw [emitCtlz64]
  generalize (if width < 64 then ops.shl x (ops.constant u64Ty (64 - width)) else x) = aligned at *
  generalize x.setWidth width = v at *
  split
  · next hzero =>
    rw [hzero, BitVec.toNat_zero, Nat.zero_mul] at haligned
    rw [toNat_popcount_inverted hops aligned (Nat.zero_le 64) (by rw [haligned]; decide)
      (fun h => absurd h (Nat.lt_irrefl 0))]
  · next hne =>
    have hclz := toNat_clz_lt hne
    have hge := BitVec.two_pow_sub_clz_le_toNat_of_ne_zero (by omega) hne
    have hlt := @BitVec.toNat_lt_two_pow_sub_clz width v
    have hpos := Nat.two_pow_pos (64 - width)
    rw [toNat_popcount_inverted hops aligned (Nat.sub_le 64 v.clz.toNat)]
    · omega
    · rw [haligned, show 64 - v.clz.toNat = (width - v.clz.toNat) + (64 - width) by omega,
        Nat.pow_add]
      exact Nat.mul_lt_mul_of_pos_right hlt hpos
    · intro _
      rw [haligned, show 64 - v.clz.toNat - 1 = (width - 1 - v.clz.toNat) + (64 - width) by omega,
        Nat.pow_add]
      exact Nat.mul_le_mul_right _ hge

/-- The other half's count is added where the first half is zero. -/
theorem toNat_addOtherHalf (half halfCount otherCount : Value u64Ty)
    (hhalf : halfCount.toNat ≤ 64) (hother : otherCount.toNat ≤ 64) :
    (addOtherHalf ops half halfCount otherCount).toNat =
      halfCount.toNat + if half = 0#64 then otherCount.toNat else 0 := by
  have hzero : ops.constant u64Ty 0 = 0#64 := hops.constant _ _
  have hmask : ∀ flag : Bool,
      0#64 - @castValueToType ops boolImmediateTy (BitVec.ofBool flag) u64Ty =
      if flag then BitVec.allOnes 64 else 0#64 := by
    intro flag
    rw [castValueToType_eq hops, convert_of_not_signed (by decide)]
    cases flag <;> decide
  rw [addOtherHalf, hzero, hops.eq, hops.sub, hops.bitAnd, hops.add, hmask]
  by_cases h : half = 0#64
  · rw [if_pos (decide_eq_true h), if_pos h, BitVec.allOnes_and, BitVec.toNat_add]
    apply Nat.mod_eq_of_lt
    show _ < 2 ^ 64
    omega
  · rw [if_neg (fun h' => h (of_decide_eq_true h')), if_neg h, BitVec.zero_and, BitVec.add_zero,
      Nat.add_zero]

theorem toNat_emitCttz128 {sign : Llvm.Signedness} (x : Value ⟨128, sign⟩) :
    (emitCttz128 ops x).toNat = x.ctz.toNat := by
  have hsplit := append_splitU128Halves hops x
  have hlo := toNat_emitCttz64 hops (splitU128Halves ops x).1 (Nat.le_refl 64)
  have hhi := toNat_emitCttz64 hops (splitU128Halves ops x).2 (Nat.le_refl 64)
  rw [BitVec.setWidth_eq] at hlo hhi
  rw [emitCttz128, toNat_addOtherHalf hops _ _ _ (by rw [hlo]; exact toNat_ctz_le _)
    (by rw [hhi]; exact toNat_ctz_le _), hlo, hhi, ← toNat_ctz_append]
  exact congrArg (fun y : BitVec 128 => y.ctz.toNat) hsplit

theorem toNat_emitCtlz128 {sign : Llvm.Signedness} (x : Value ⟨128, sign⟩) :
    (emitCtlz128 ops x).toNat = x.clz.toNat := by
  have hsplit := append_splitU128Halves hops x
  have hcount : ∀ half : Value u64Ty, (emitCtlz64 ops half 64).toNat = half.clz.toNat := by
    intro half
    rw [toNat_emitCtlz64 hops half (by decide) (Nat.le_refl 64), BitVec.setWidth_eq]
    split
    · next hzero => rw [hzero, toNat_clz_zero]
    · rfl
  have hle : ∀ half : Value u64Ty, (emitCtlz64 ops half 64).toNat ≤ 64 := by
    intro half
    rw [hcount]
    exact toNat_clz_le half
  rw [emitCtlz128, toNat_addOtherHalf hops _ _ _ (hle _) (hle _), hcount, hcount,
    ← toNat_clz_append]
  exact congrArg (fun y : BitVec 128 => y.clz.toNat) hsplit

/-! ## Reversals -/

theorem joinU128Halves_eq (lo hi : Value u64Ty) :
    joinU128Halves ops lo hi = (hi ++ lo : BitVec (64 + 64)) := by
  rw [joinU128Halves, cast_unsigned hops, cast_unsigned hops, shl_constant hops _ (by decide),
    hops.bitOr]
  apply BitVec.eq_of_getLsbD_eq
  intro i hi'
  have hlt : i < 128 := hi'
  rw [BitVec.getLsbD_or, BitVec.getLsbD_shiftLeft, BitVec.getLsbD_setWidth,
    BitVec.getLsbD_setWidth, BitVec.getLsbD_append, decide_eq_true hi', Bool.true_and,
    Bool.true_and]
  by_cases hlow : i < 64
  · rw [decide_eq_true hlow, Bool.not_true, Bool.false_and, Bool.false_or, if_pos hlow]
  · rw [decide_eq_false hlow, Bool.not_false, Bool.true_and, if_neg hlow,
      decide_eq_true (show i - 64 < 128 by omega), Bool.true_and,
      BitVec.getLsbD_of_ge lo i (by show 64 ≤ i; omega), Bool.or_false]

theorem getLsbD_emitBswap64 (x : Value u64Ty) {width : Nat} (hw : width ≤ 64) {i : Nat}
    (hi : i < 8 * (width / 8)) :
    (emitBswap64 ops x width).getLsbD i = x.getLsbD (8 * (width / 8 - 1 - i / 8) + i % 8) := by
  have hlanes : (List.range (width / 8)).foldl (moveLane ops x (width / 8))
      (ops.constant u64Ty 0) = (List.range (width / 8)).foldl (moveByte x (width / 8)) 0#64 := by
    rw [hops.constant]
    apply List.foldl_ext
    intro result lane hlane
    have hlt := List.mem_range.mp hlane
    rw [moveLane, shr_constant hops _ (show lane * 8 < 64 by omega),
      shl_constant hops _ (show (width / 8 - 1 - lane) * 8 < 64 by omega), hops.bitAnd,
      hops.bitOr, hops.constant]
    rfl
  rw [emitBswap64, hlanes, getLsbD_foldl_moveByte (by decide) x (Nat.le_refl _)
    (show i < 64 by omega), decide_eq_true (by omega), Bool.true_and]

/-- A pass swaps neighbouring groups. -/
theorem getLsbD_swapGroup (x : Value u64Ty) {mask k : Nat} (hk : 0 < k) (hk' : k < 64)
    (hmask : ∀ i < 64, (BitVec.ofNat 64 mask).getLsbD i = decide (i / k % 2 = 0)) {i : Nat}
    (hi : i < 64) : (swapGroups ops x (mask, k)).getLsbD i = x.getLsbD (swapPlace k i) := by
  rw [swapGroups, shr_constant hops x hk', shl_constant hops _ hk', hops.bitAnd, hops.bitAnd,
    hops.bitOr, hops.constant]
  exact getLsbD_swapGroups x _ hk hmask hi

theorem getLsbD_emitBitreverse64 (x : Value u64Ty) {width : Nat} (hw : width ≤ 64) {i : Nat}
    (hi : i < width) : (emitBitreverse64 ops x width).getLsbD i = x.getLsbD (width - 1 - i) := by
  have hplace : ∀ k ∈ [1, 2, 4], ∀ i < 64, swapPlace k i < 64 := by decide
  have hreverse : ∀ i < 64, (emitBswap64 ops ([(0x5555555555555555, 1), (0x3333333333333333, 2),
      (0x0f0f0f0f0f0f0f0f, 4)].foldl (swapGroups ops) x) 64).getLsbD i = x.getLsbD (63 - i) := by
    intro i hi
    have hswap : 8 * (7 - i / 8) + i % 8 < 64 := by omega
    have hfour := hplace 4 (by decide) _ hswap
    have htwo := hplace 2 (by decide) _ hfour
    rw [getLsbD_emitBswap64 hops _ (Nat.le_refl 64) hi, List.foldl_cons, List.foldl_cons,
      List.foldl_cons, List.foldl_nil,
      getLsbD_swapGroup hops _ (by decide) (by decide) (by decide) hswap,
      getLsbD_swapGroup hops _ (by decide) (by decide) (by decide) hfour,
      getLsbD_swapGroup hops _ (by decide) (by decide) (by decide) htwo]
    rw [swapPlace_reverse i hi]
  rw [emitBitreverse64]
  split
  · next hlt =>
    rw [shr_constant hops _ (show 64 - width < 64 by omega), BitVec.getLsbD_ushiftRight,
      hreverse _ (by omega)]
    congr 1
    omega
  · next hge =>
    rw [hreverse i (by omega)]
    congr 1
    omega

/-! ## Rotations -/

theorem toNat_bitAnd_modulus {width e : Nat} (he : 2 ^ e ≤ width) (x : Value ⟨width, .unsigned⟩) :
    (ops.bitAnd x (ops.constant ⟨width, .unsigned⟩ (2 ^ e - 1))).toNat = x.toNat % 2 ^ e := by
  have hlt : 2 ^ e - 1 < 2 ^ width :=
    lt_of_le_of_lt (le_trans (Nat.sub_le _ _) he) Nat.lt_two_pow_self
  rw [hops.bitAnd, hops.constant, BitVec.toNat_and, BitVec.toNat_ofNat, Nat.mod_eq_of_lt hlt,
    Nat.and_two_pow_sub_one_eq_mod]

/-- The amounts are taken modulo the width of the field. -/
theorem emitRotate_eq {width e : Nat} (he : 2 ^ e ≤ width) (isLeft : Bool)
    (x shift : Value ⟨width, .unsigned⟩) :
    emitRotate ops isLeft (2 ^ e) x shift =
      if isLeft then
        (x <<< (shift.toNat % 2 ^ e)) ||| (x >>> ((2 ^ e - shift.toNat % 2 ^ e) % 2 ^ e))
      else (x <<< ((2 ^ e - shift.toNat % 2 ^ e) % 2 ^ e)) ||| (x >>> (shift.toNat % 2 ^ e)) := by
  have hpos := Nat.two_pow_pos e
  have hk := toNat_bitAnd_modulus hops he shift
  have hklt := Nat.mod_lt shift.toNat hpos
  have hfield : (ops.constant ⟨width, .unsigned⟩ (2 ^ e)).toNat = 2 ^ e := by
    rw [hops.constant]
    exact Nat.mod_eq_of_lt (lt_of_le_of_lt he Nat.lt_two_pow_self)
  rw [emitRotate]
  generalize ops.bitAnd shift (ops.constant ⟨width, .unsigned⟩ (2 ^ e - 1)) = k at *
  have hcomplement : (ops.sub (ops.constant ⟨width, .unsigned⟩ (2 ^ e)) k).toNat =
      2 ^ e - shift.toNat % 2 ^ e := by
    rw [hops.sub, BitVec.toNat_sub_of_le, hfield, hk]
    rw [BitVec.le_def, hfield, hk]
    exact hklt.le
  have hinv := toNat_bitAnd_modulus hops he (ops.sub (ops.constant ⟨width, .unsigned⟩ (2 ^ e)) k)
  rw [hcomplement] at hinv
  have hinvlt := Nat.mod_lt (2 ^ e - shift.toNat % 2 ^ e) hpos
  have hnot : ¬ IntegerType.IsSigned ⟨width, .unsigned⟩ := by intro h; cases h
  cases isLeft with
  | true =>
    rw [if_pos rfl, if_pos rfl, if_pos rfl, hops.shl _ _ (by rw [hk]; exact lt_of_lt_of_le hklt he),
      hops.shr _ _ hnot (by rw [hinv]; exact lt_of_lt_of_le hinvlt he), hops.bitOr, hk, hinv]
  | false =>
    rw [if_neg Bool.false_ne_true, if_neg Bool.false_ne_true, if_neg Bool.false_ne_true,
      hops.shl _ _ (by rw [hinv]; exact lt_of_lt_of_le hinvlt he),
      hops.shr _ _ hnot (by rw [hk]; exact lt_of_lt_of_le hklt he), hops.bitOr, hk, hinv]

/-- A rotation of a field of a word whose other bits are clear. -/
theorem getLsbD_emitRotate {width e : Nat} (he : 2 ^ e ≤ width) (isLeft : Bool)
    {x : BitVec (2 ^ e)} {y shift : Value ⟨width, .unsigned⟩}
    (hlow : ∀ i < 2 ^ e, y.getLsbD i = x.getLsbD i) (hhigh : ∀ i, 2 ^ e ≤ i → y.getLsbD i = false)
    {i : Nat} (hi : i < 2 ^ e) :
    (emitRotate ops isLeft (2 ^ e) y shift).getLsbD i =
      (if isLeft then x.rotateLeft shift.toNat else x.rotateRight shift.toNat).getLsbD i := by
  rw [emitRotate_eq hops he]
  cases isLeft with
  | true => exact getLsbD_rotateLeft_field he hlow hhigh shift.toNat hi
  | false => exact getLsbD_rotateRight_field he hlow hhigh shift.toNat hi

theorem getLsbD_emitRotate64 {e : Nat} (he : 2 ^ e ≤ 64) (isLeft : Bool) {x : BitVec (2 ^ e)}
    {y shift : Value u64Ty} (hlow : ∀ i < 2 ^ e, y.getLsbD i = x.getLsbD i) {i : Nat}
    (hi : i < 2 ^ e) :
    (emitRotate64 ops isLeft (2 ^ e) y shift).getLsbD i =
      (if isLeft then x.rotateLeft shift.toNat else x.rotateRight shift.toNat).getLsbD i := by
  have hones := shiftRight_ones (2 ^ e) (64 - 2 ^ e)
  rw [Nat.add_sub_of_le he] at hones
  have hmask : ∀ j < 64, (ops.constant u64Ty (2 ^ 2 ^ e - 1)).getLsbD j = decide (j < 2 ^ e) := by
    intro j hj
    rw [hops.constant, BitVec.getLsbD_ofNat, decide_eq_true hj, Bool.true_and,
      Nat.testBit_two_pow_sub_one]
  rw [emitRotate64, hones]
  split
  · next hlt =>
    rw [hops.bitAnd, hops.bitAnd, BitVec.getLsbD_and, hmask i (by omega), decide_eq_true hi,
      Bool.and_true]
    apply getLsbD_emitRotate hops he isLeft _ _ hi
    · intro j hj
      rw [BitVec.getLsbD_and, hmask j (by omega), decide_eq_true hj, Bool.and_true, hlow j hj]
    · intro j hj
      by_cases hj' : j < 64
      · rw [BitVec.getLsbD_and, hmask j hj', decide_eq_false (by omega), Bool.and_false]
      · exact BitVec.getLsbD_of_ge _ _ (Nat.le_of_not_lt hj')
  · next hge =>
    have hfull : 2 ^ e = 64 := by omega
    apply getLsbD_emitRotate hops he isLeft hlow _ hi
    intro j hj
    exact BitVec.getLsbD_of_ge _ _ (by show 64 ≤ j; omega)

/-! ## The intrinsics -/

/-- The bits of a widened operand: a signed one is extended by its sign. -/
theorem toNat_widened {ty : IntegerType} (hw : ty.width ≤ 64) (x : Value ty) :
    (castValueToType ops x u64Ty).toNat =
      x.toNat + if ty.value x < 0 then 2 ^ 64 - 2 ^ ty.width else 0 := by
  have hlt : x.toNat < 2 ^ 64 := lt_of_lt_of_le x.isLt (Nat.pow_le_pow_right (by decide) hw)
  rw [castValueToType_eq hops, IntegerType.value]
  by_cases hsigned : ty.IsSigned
  · have hmsb : x.msb = true ↔ x.toInt < 0 := by rw [BitVec.msb_eq_toInt, decide_eq_true_iff]
    rw [convert_of_signed hsigned, BitVec.toNat_signExtend, BitVec.toNat_setWidth,
      Nat.mod_eq_of_lt hlt, if_pos hsigned]
    congr 1
    exact if_congr hmsb rfl rfl
  · rw [convert_of_not_signed hsigned, BitVec.toNat_setWidth, Nat.mod_eq_of_lt hlt,
      if_neg hsigned, if_neg (Int.not_lt.mpr (Int.natCast_nonneg _)), Nat.add_zero]

theorem lowerCtpop_narrow {ty : IntegerType} (hw : ty.width ≤ 64) (x : Value ty) :
    lowerCtpop ops x u32Ty = .ok (BitVec.ofNat 32
      (x.cpop.toNat + if ty.value x < 0 then 64 - ty.width else 0)) := by
  have hcount : (emitPopcount64 ops (castValueToType ops x u64Ty)).toNat =
      x.cpop.toNat + if ty.value x < 0 then 64 - ty.width else 0 := by
    rw [toNat_emitPopcount64 hops, toNat_widened hops hw, toNat_cpop_eq]
    split
    · exact bitCount_add_high hw x.isLt
    · exact bitCount_of_lt hw x.isLt
  rw [lowerCtpop, if_neg (by omega), (widenToU64_eq hops hw x).1]
  exact congrArg Except.ok (cast_count hops hcount)

theorem lowerCtpop_wide {sign : Llvm.Signedness} (x : Value ⟨128, sign⟩) :
    lowerCtpop ops x u32Ty = .ok (BitVec.ofNat 32 x.cpop.toNat) := by
  have hsplit := append_splitU128Halves hops x
  have hcount : ∀ half : Value u64Ty, (emitPopcount64 ops half).toNat = half.cpop.toNat := by
    intro half
    rw [toNat_emitPopcount64 hops, toNat_cpop_eq]
  have hle : ∀ half : Value u64Ty, half.cpop.toNat ≤ 64 := fun half => BitVec.toNat_cpop_le half
  have hsum : (ops.add (emitPopcount64 ops (splitU128Halves ops x).1)
      (emitPopcount64 ops (splitU128Halves ops x).2)).toNat = x.cpop.toNat := by
    have hlo := hle (splitU128Halves ops x).1
    have hhi := hle (splitU128Halves ops x).2
    rw [hops.add, BitVec.toNat_add, hcount, hcount, Nat.mod_eq_of_lt (by show _ < 2 ^ 64; omega),
      Nat.add_comm, ← BitVec.toNat_cpop_append]
    exact congrArg (fun y : BitVec 128 => y.cpop.toNat) hsplit
  rw [lowerCtpop, if_pos rfl]
  exact congrArg Except.ok (cast_count hops hsum)

theorem lowerCttz_narrow {ty : IntegerType} (hw : ty.width ≤ 64) (x : Value ty) :
    lowerCttz ops x u32Ty = .ok (BitVec.ofNat 32 x.ctz.toNat) := by
  obtain ⟨hwiden, hlow⟩ := widenToU64_eq hops hw x
  have hcount := toNat_emitCttz64 hops (castValueToType ops x u64Ty) hw
  rw [hlow] at hcount
  rw [lowerCttz, if_neg (by omega), if_neg (by omega), hwiden]
  exact congrArg Except.ok (cast_count hops hcount)

theorem lowerCttz_wide {sign : Llvm.Signedness} (x : Value ⟨128, sign⟩) :
    lowerCttz ops x u32Ty = .ok (BitVec.ofNat 32 x.ctz.toNat) := by
  rw [lowerCttz, if_pos rfl]
  exact congrArg Except.ok (cast_count hops (toNat_emitCttz128 hops x))

theorem lowerCtlz_narrow {ty : IntegerType} (hpos : 0 < ty.width) (hw : ty.width ≤ 64)
    (x : Value ty) : lowerCtlz ops x u32Ty =
      .ok (BitVec.ofNat 32 (if x = 0#(ty.width) then 64 else x.clz.toNat)) := by
  obtain ⟨hwiden, hlow⟩ := widenToU64_eq hops hw x
  have hcount := toNat_emitCtlz64 hops (castValueToType ops x u64Ty) hpos hw
  rw [hlow] at hcount
  rw [lowerCtlz, if_neg (by omega), if_neg (by omega), hwiden]
  exact congrArg Except.ok (cast_count hops hcount)

theorem lowerCtlz_wide {sign : Llvm.Signedness} (x : Value ⟨128, sign⟩) :
    lowerCtlz ops x u32Ty = .ok (BitVec.ofNat 32 x.clz.toNat) := by
  rw [lowerCtlz, if_pos rfl]
  exact congrArg Except.ok (cast_count hops (toNat_emitCtlz128 hops x))

/-- A result of 64 bits read back at the operand's type. -/
theorem cast_back {ty : IntegerType} {y : Value u64Ty} {z : Value ty}
    (h : ∀ i < ty.width, y.getLsbD i = z.getLsbD i) : castValueToType ops y ty = z := by
  rw [cast_unsigned hops]
  apply BitVec.eq_of_getLsbD_eq
  intro i hi
  rw [BitVec.getLsbD_setWidth, decide_eq_true hi, Bool.true_and, h i hi]

/-- The bits of a 128-bit value are those of its halves. -/
theorem getLsbD_halves {sign : Llvm.Signedness} (x : Value ⟨128, sign⟩) (i : Nat) :
    x.getLsbD i = if i < 64 then (splitU128Halves ops x).1.getLsbD i
      else (splitU128Halves ops x).2.getLsbD (i - 64) := by
  rw [← BitVec.getLsbD_append]
  exact congrArg (fun y : BitVec 128 => y.getLsbD i) (append_splitU128Halves hops x).symm

/-- A 128-bit result made of its halves. -/
theorem cast_joined {sign : Llvm.Signedness} {lo hi : Value u64Ty} {z : Value ⟨128, sign⟩}
    (h : ∀ i < 128, (if i < 64 then lo.getLsbD i else hi.getLsbD (i - 64)) = z.getLsbD i) :
    castValueToType ops (joinU128Halves ops lo hi) ⟨128, sign⟩ = z := by
  rw [cast_unsigned hops, joinU128Halves_eq hops]
  apply BitVec.eq_of_getLsbD_eq
  intro i hi'
  rw [BitVec.getLsbD_setWidth, decide_eq_true hi', Bool.true_and, BitVec.getLsbD_append]
  exact h i hi'

theorem lowerBswap_narrow {ty : IntegerType} (hw : ty.width ≤ 64) (hbytes : ty.width % 8 = 0)
    (x : Value ty) : lowerBswap ops x ty = .ok (swapBytes x) := by
  obtain ⟨hwiden, -⟩ := widenToU64_eq hops hw x
  have hbit : ∀ i < ty.width, (castValueToType ops x u64Ty).getLsbD i = x.getLsbD i :=
    fun i hi => getLsbD_cast hops x u64Ty hi (show i < 64 by omega)
  rw [lowerBswap, if_neg (by omega), if_neg (by omega), hwiden]
  split
  · next height =>
    refine congrArg Except.ok (cast_back hops fun i hi => ?_)
    rw [hbit i hi, getLsbD_swapBytes hbytes x hi]
    congr 1
    omega
  · refine congrArg Except.ok (cast_back hops fun i hi => ?_)
    rw [getLsbD_emitBswap64 hops _ hw (by omega), getLsbD_swapBytes hbytes x hi,
      hbit _ (by omega)]

theorem lowerBswap_wide {sign : Llvm.Signedness} (x : Value ⟨128, sign⟩) :
    lowerBswap ops x ⟨128, sign⟩ = .ok (swapBytes x) := by
  have hhalf : ∀ (half : Value u64Ty) {i : Nat}, i < 64 →
      (emitBswap64 ops half 64).getLsbD i = half.getLsbD (8 * (7 - i / 8) + i % 8) :=
    fun half _ hi => getLsbD_emitBswap64 hops half (Nat.le_refl 64) hi
  rw [lowerBswap, if_pos rfl]
  refine congrArg Except.ok (cast_joined hops fun i hlt => ?_)
  have hspec : (swapBytes x).getLsbD i = x.getLsbD (8 * (15 - i / 8) + i % 8) :=
    @getLsbD_swapBytes 128 (by decide) x i hlt
  rw [hspec, getLsbD_halves hops x]
  by_cases hlow : i < 64
  · rw [if_pos hlow, if_neg (by omega), hhalf _ hlow]
    congr 1
    omega
  · rw [if_neg hlow, if_pos (by omega), hhalf _ (by omega)]
    congr 1
    omega

theorem lowerBitreverse_narrow {ty : IntegerType} (hw : ty.width ≤ 64) (x : Value ty) :
    lowerBitreverse ops x ty = .ok x.reverse := by
  obtain ⟨hwiden, -⟩ := widenToU64_eq hops hw x
  rw [lowerBitreverse, if_neg (by omega), if_neg (by omega), hwiden]
  refine congrArg Except.ok (cast_back hops fun i hi => ?_)
  rw [getLsbD_emitBitreverse64 hops _ hw hi, BitVec.getLsbD_reverse, BitVec.getMsbD_eq_getLsbD,
    decide_eq_true hi, Bool.true_and,
    getLsbD_cast hops x u64Ty (by omega) (show ty.width - 1 - i < 64 by omega)]

theorem lowerBitreverse_wide {sign : Llvm.Signedness} (x : Value ⟨128, sign⟩) :
    lowerBitreverse ops x ⟨128, sign⟩ = .ok x.reverse := by
  rw [lowerBitreverse, if_pos rfl]
  refine congrArg Except.ok (cast_joined hops fun i hlt => ?_)
  have hspec : x.reverse.getLsbD i = x.getLsbD (127 - i) := by
    rw [BitVec.getLsbD_reverse, BitVec.getMsbD_eq_getLsbD, decide_eq_true hlt, Bool.true_and]
    rfl
  rw [hspec, getLsbD_halves hops x]
  by_cases hlow : i < 64
  · rw [if_pos hlow, if_neg (by omega), getLsbD_emitBitreverse64 hops _ (Nat.le_refl 64) hlow]
    congr 1
    omega
  · rw [if_neg hlow, if_pos (by omega),
      getLsbD_emitBitreverse64 hops _ (Nat.le_refl 64) (by omega)]
    congr 1
    omega

theorem lowerRotate_narrow {e : Nat} (he : 2 ^ e ≤ 64) (hpower : isPowerOfTwo (2 ^ e) = true)
    {sign : Llvm.Signedness} (isLeft : Bool) (x : Value ⟨2 ^ e, sign⟩) (shift : Value u32Ty) :
    lowerRotate ops isLeft x shift ⟨2 ^ e, sign⟩ =
      .ok (if isLeft then x.rotateLeft shift.toNat else x.rotateRight shift.toNat) := by
  obtain ⟨hwiden, -⟩ := @widenToU64_eq ops hops ⟨2 ^ e, sign⟩ he x
  obtain ⟨hshift, -⟩ := @widenToU64_eq ops hops u32Ty (by decide) shift
  have hamount : (castValueToType ops shift u64Ty).toNat = shift.toNat := by
    rw [cast_unsigned hops]
    exact BitVec.toNat_setWidth_of_le (by decide)
  have hsupported : ¬ (2 ^ e > 64 ∨ isPowerOfTwo (2 ^ e) = false) := by
    rw [hpower]
    rintro (h | h)
    · omega
    · cases h
  rw [lowerRotate, if_neg (by show ¬ 2 ^ e = 128; omega), if_neg hsupported, hwiden, hshift]
  refine congrArg Except.ok (cast_back hops fun i hi => ?_)
  rw [← hamount]
  exact getLsbD_emitRotate64 hops he isLeft
    (fun j hj => getLsbD_cast hops x u64Ty hj (show j < 64 by omega)) hi

theorem lowerRotate_wide {sign : Llvm.Signedness} (isLeft : Bool) (x : Value ⟨128, sign⟩)
    (shift : Value u32Ty) : lowerRotate ops isLeft x shift ⟨128, sign⟩ =
      .ok (if isLeft then x.rotateLeft shift.toNat else x.rotateRight shift.toNat) := by
  have hamount : (castValueToType ops shift u128Ty).toNat = shift.toNat := by
    rw [cast_unsigned hops]
    exact BitVec.toNat_setWidth_of_le (by decide)
  rw [lowerRotate, if_pos rfl, ← hamount]
  refine congrArg Except.ok (BitVec.eq_of_getLsbD_eq fun i hi => ?_)
  rw [cast_unsigned hops, BitVec.getLsbD_setWidth, decide_eq_true hi, Bool.true_and]
  exact getLsbD_emitRotate hops (e := 7) (Nat.le_refl 128) isLeft
    (fun j hj => getLsbD_cast hops x u128Ty hj hj)
    (fun j hj => BitVec.getLsbD_of_ge _ _ hj) hi

end Exact

/-! ## Where the sequences are exact -/

/-- The operands on which a sequence is off: the ones of a negative number and
    the leading zeros of zero, at less than 64 bits. -/
def BitIntrinsic.Slips (name : BitIntrinsic) {ty : IntegerType} (input : Value ty) : Prop :=
  ty.width < 64 ∧ (name = .ctpop ∧ ty.value input < 0 ∨ name = .ctlz ∧ input = 0#(ty.width))

theorem ofNat_inj_of_le {a b : Nat} (ha : a ≤ 128) (hb : b ≤ 128) :
    (Except.ok (BitVec.ofNat 32 a) : Except String (BitVec 32)) = .ok (BitVec.ofNat 32 b) ↔
      a = b := by
  rw [Except.ok.injEq, ← BitVec.toNat_inj, BitVec.toNat_ofNat, BitVec.toNat_ofNat,
    Nat.mod_eq_of_lt (by omega), Nat.mod_eq_of_lt (by omega)]

/-- The widths of the language: 128, or a power of two with whole bytes that a
    64-bit word holds. -/
theorem width_cases {width : Nat} (hw : width ∈ [8, 16, 32, 64, 128]) :
    width = 128 ∨ ∃ e, width = 2 ^ e ∧ 0 < 2 ^ e ∧ 2 ^ e ≤ 64 ∧ 2 ^ e % 8 = 0 ∧
      isPowerOfTwo (2 ^ e) = true := by
  simp only [List.mem_cons, List.not_mem_nil, or_false] at hw
  rcases hw with rfl | rfl | rfl | rfl | rfl
  · exact Or.inr ⟨3, by decide⟩
  · exact Or.inr ⟨4, by decide⟩
  · exact Or.inr ⟨5, by decide⟩
  · exact Or.inr ⟨6, by decide⟩
  · exact Or.inl rfl

theorem lowerCtpop_exact_iff {ops : MirOps} (hops : ops.Documented) {ty : IntegerType}
    (hw : ty.width ≤ 64) (x : Value ty) :
    lowerCtpop ops x u32Ty = .ok (BitVec.ofNat 32 x.cpop.toNat) ↔
      ¬ (ty.width < 64 ∧ ty.value x < 0) := by
  have hle := BitVec.toNat_cpop_le x
  rw [lowerCtpop_narrow hops hw, ofNat_inj_of_le (by split <;> omega) (by omega)]
  split <;> omega

theorem lowerCtlz_exact_iff {ops : MirOps} (hops : ops.Documented) {ty : IntegerType}
    (hpos : 0 < ty.width) (hw : ty.width ≤ 64) (x : Value ty) :
    lowerCtlz ops x u32Ty = .ok (BitVec.ofNat 32 x.clz.toNat) ↔
      ¬ (ty.width < 64 ∧ x = 0#(ty.width)) := by
  have hle := toNat_clz_le x
  rw [lowerCtlz_narrow hops hpos hw, ofNat_inj_of_le (by split <;> omega) (by omega)]
  split
  · next hzero =>
    have hclz : x.clz.toNat = ty.width := by rw [hzero, toNat_clz_zero]
    rw [hclz, and_iff_left hzero]
    omega
  · next hne => exact ⟨fun _ h => hne h.2, fun _ => rfl⟩

/-- The sequence for a bit intrinsic leaves the intrinsic's result, at every
    width of the language, exactly where it does not slip. -/
theorem bitIntrinsic_exact_iff {ops : MirOps} (hops : ops.Documented) {ty : IntegerType}
    (hw : ty.width ∈ [8, 16, 32, 64, 128]) (name : BitIntrinsic) (input : Value ty)
    (shift : Value u32Ty) :
    lowerBitIntrinsic ops name input shift (name.resultTy ty) =
      .ok (name.defined input shift.toNat) ↔ ¬ name.Slips input := by
  have hslips : ∀ other, other ≠ .ctpop → other ≠ .ctlz →
      ¬ BitIntrinsic.Slips other input := by
    rintro other hctpop hctlz ⟨-, ⟨h, -⟩ | ⟨h, -⟩⟩
    · exact hctpop h
    · exact hctlz h
  obtain ⟨width, sign⟩ := ty
  rcases width_cases hw with hwide | ⟨e, hnarrow, hpos, hle, hbytes, hpower⟩
  · obtain rfl : width = 128 := hwide
    have hwidth : ¬ name.Slips input := fun h => absurd h.1 (Nat.not_lt.mpr (by decide : 64 ≤ 128))
    refine ⟨fun _ => hwidth, fun _ => ?_⟩
    cases name with
    | ctpop => exact lowerCtpop_wide hops input
    | cttz => exact lowerCttz_wide hops input
    | ctlz => exact lowerCtlz_wide hops input
    | bswap => exact lowerBswap_wide hops input
    | bitreverse => exact lowerBitreverse_wide hops input
    | rotateLeft => exact lowerRotate_wide hops true input shift
    | rotateRight => exact lowerRotate_wide hops false input shift
  · obtain rfl : width = 2 ^ e := hnarrow
    cases name with
    | ctpop =>
      refine (lowerCtpop_exact_iff hops hle input).trans (not_congr ?_)
      exact ⟨fun h => ⟨h.1, Or.inl ⟨rfl, h.2⟩⟩, fun ⟨hlt, h⟩ => ⟨hlt, by
        rcases h with h | h
        · exact h.2
        · cases h.1⟩⟩
    | cttz =>
      exact ⟨fun _ => hslips _ (by decide) (by decide), fun _ => lowerCttz_narrow hops hle input⟩
    | ctlz =>
      refine (lowerCtlz_exact_iff hops hpos hle input).trans (not_congr ?_)
      exact ⟨fun h => ⟨h.1, Or.inr ⟨rfl, h.2⟩⟩, fun ⟨hlt, h⟩ => ⟨hlt, by
        rcases h with h | h
        · cases h.1
        · exact h.2⟩⟩
    | bswap =>
      exact ⟨fun _ => hslips _ (by decide) (by decide),
        fun _ => lowerBswap_narrow hops hle hbytes input⟩
    | bitreverse =>
      exact ⟨fun _ => hslips _ (by decide) (by decide),
        fun _ => lowerBitreverse_narrow hops hle input⟩
    | rotateLeft =>
      exact ⟨fun _ => hslips _ (by decide) (by decide),
        fun _ => lowerRotate_narrow hops hle hpower true input shift⟩
    | rotateRight =>
      exact ⟨fun _ => hslips _ (by decide) (by decide),
        fun _ => lowerRotate_narrow hops hle hpower false input shift⟩

/-- The operations as documented, on a negative number whose bits are reversed. -/
theorem bitIntrinsic_exact_iff_bitreverse :
    @lowerBitIntrinsic MirOps.reference .bitreverse ⟨8, .signed⟩ 0x83#8 0#32 ⟨8, .signed⟩ =
      .ok 0xc1#8 :=
  (@bitIntrinsic_exact_iff _ MirOps.reference_documented ⟨8, .signed⟩ (by decide) .bitreverse
    0x83#8 0#32).mpr (fun h => by rcases h.2 with h | h <;> cases h.1)

/-- The leading zeros of an eight-bit zero come out as 64, and so do the ones of
    an eight-bit minus one. -/
theorem bitIntrinsic_slips :
    @lowerBitIntrinsic MirOps.reference .ctlz ⟨8, .unsigned⟩ 0#8 0#32 u32Ty = .ok 64#32 ∧
      @BitIntrinsic.defined .ctlz ⟨8, .unsigned⟩ 0#8 0 = 8#32 ∧
      @lowerBitIntrinsic MirOps.reference .ctpop ⟨8, .signed⟩ 0xff#8 0#32 u32Ty = .ok 64#32 ∧
      @BitIntrinsic.defined .ctpop ⟨8, .signed⟩ 0xff#8 0 = 8#32 :=
  ⟨rfl, rfl, rfl, rfl⟩

end Crabbit.Mir
