/-
  Crabbit.Mir.SimdLanes

  The scalar sequences for vectors of eight byte lanes
  (`importer/intrinsics.rs`).  A vector is its 64-bit pattern, the lanes from the
  low byte up.

  Equality is found for all lanes at once, and goes wrong where a borrow leaves
  an equal lane; the comparisons read every lane as signed.
-/

import Crabbit.Lib.ByteLanes
import Crabbit.Mir.BitIntrinsicsExact

namespace Crabbit.Mir

open Crabbit.Lib IntegerType
open Crabbit.Llvm (Signedness)

/-! ## Emission -/

/-- The operations with the one comparison more that is used here. -/
structure LaneOps extends MirOps where
  ge : {ty : IntegerType} → Value ty → Value ty → Value boolImmediateTy

/-- The comparison too follows the signedness of the operands' type. -/
structure LaneOps.Documented (ops : LaneOps) : Prop where
  mir : ops.toMirOps.Documented
  ge : ∀ {ty} (x y : Value ty), ops.ge x y = BitVec.ofBool (!ty.less x y)

abbrev i8Ty : IntegerType := ⟨8, .signed⟩

/-- The intrinsics on two vectors. -/
inductive LaneIntrinsic where
  | simdOr
  | simdEq
  | simdLt
  | simdGe
  deriving DecidableEq

section Emission

variable (ops : LaneOps)

/-- `simd_splat` -/
def emitSplat {ty : IntegerType} (lane : Value ty) : Except String (Value u64Ty) :=
  if ty.width ≠ 8 then .error "unsupported simd_splat lane type (expected u8)"
  else
    (widenToU64 ops.toMirOps lane).map fun lane =>
      ops.mul (ops.bitAnd lane (ops.constant u64Ty 0xff)) (ops.constant u64Ty 0x0101010101010101)

/-- `simd_eq`: the highest bits of the equal lanes, smeared down. -/
def emitEq (lhs rhs : Value u64Ty) : Value u64Ty :=
  let t := ops.bitXor lhs rhs
  let minus := ops.sub t (ops.constant u64Ty 0x0101010101010101)
  let notT := ops.bitXor t (ops.constant u64Ty (2 ^ 64 - 1))
  let and1 := ops.bitAnd minus notT
  let mask := ops.bitAnd and1 (ops.constant u64Ty 0x8080808080808080)
  [1, 2, 4].foldl (fun mask shift => ops.bitOr mask (ops.shr mask (ops.constant u64Ty shift))) mask

/-- One lane of `simd_lt` or `simd_ge`, by its comparison. -/
def emitCompareLane (compare : Value i8Ty → Value i8Ty → Value boolImmediateTy)
    (lhs rhs result : Value u64Ty) (lane : Nat) : Value u64Ty :=
  let zero := ops.constant u64Ty 0
  let amount := ops.constant u64Ty (lane * 8)
  let lhsLane := castValueToType ops.toMirOps (ops.shr lhs amount) i8Ty
  let rhsLane := castValueToType ops.toMirOps (ops.shr rhs amount) i8Ty
  let cond := castValueToType ops.toMirOps (compare lhsLane rhsLane) u64Ty
  let neg := ops.sub zero cond
  let laneMask := ops.bitAnd neg (ops.constant u64Ty 0xff)
  let placed := ops.shl laneMask amount
  ops.bitOr result placed

def emitCompare (compare : Value i8Ty → Value i8Ty → Value boolImmediateTy)
    (lhs rhs : Value u64Ty) : Value u64Ty :=
  (List.range 8).foldl (emitCompareLane ops compare lhs rhs) (ops.constant u64Ty 0)

def LaneIntrinsic.emit (name : LaneIntrinsic) (lhs rhs : Value u64Ty) : Value u64Ty :=
  match name with
  | .simdOr => ops.bitOr lhs rhs
  | .simdEq => emitEq ops lhs rhs
  | .simdLt => emitCompare ops ops.lt lhs rhs
  | .simdGe => emitCompare ops ops.ge lhs rhs

end Emission

/-! ## What is to be computed -/

/-- A lane of the result, for lanes of a signedness. -/
def LaneIntrinsic.lanewise (name : LaneIntrinsic) (sign : Signedness) (a b : BitVec 8) : BitVec 8 :=
  match name with
  | .simdOr => a ||| b
  | .simdEq => laneMask (a = b)
  | .simdLt => laneMask (IntegerType.less ⟨8, sign⟩ a b)
  | .simdGe => laneMask (!IntegerType.less ⟨8, sign⟩ a b)

/-- No equal lanes lie below lanes that differ in their lowest bits alone; lanes
    that are not signed and are compared have the same highest bits. -/
def LaneIntrinsic.Exact (name : LaneIntrinsic) (sign : Signedness) (x y : Value u64Ty) : Prop :=
  match name with
  | .simdOr => True
  | .simdEq => ∀ k < 7, ¬ (lane x k = lane y k ∧ lane x (k + 1) ^^^ lane y (k + 1) = 1)
  | .simdLt | .simdGe => sign = .signed ∨ ∀ k < 8, (lane x k).msb = (lane y k).msb

section Exact

variable {ops : LaneOps} (hops : ops.Documented)
include hops

/-! ## Splats -/

theorem emitSplat_exact {sign : Signedness} (b : Value ⟨8, sign⟩) :
    ∃ bits, emitSplat ops b = .ok bits ∧ ∀ k < 8, lane bits k = b := by
  obtain ⟨hwiden, hlow⟩ := @widenToU64_eq _ hops.mir ⟨8, sign⟩ (show 8 ≤ 64 by decide) b
  have hsplat : emitSplat ops b = .ok (ops.mul
      (ops.bitAnd (castValueToType ops.toMirOps b u64Ty) (ops.constant u64Ty 0xff))
      (ops.constant u64Ty 0x0101010101010101)) := by
    have hwidth : ¬ (⟨8, sign⟩ : IntegerType).width ≠ 8 := fun h => h rfl
    rw [emitSplat, if_neg hwidth, hwiden]
    rfl
  refine ⟨_, hsplat, fun k hk => ?_⟩
  rw [hops.mir.mul, hops.mir.bitAnd, hops.mir.constant, hops.mir.constant]
  refine lane_mul_ones ?_ hk
  -- The mask keeps the low byte of what was widened.
  have hmask : ∀ n, n &&& 0xff = n % 2 ^ 8 := fun n => Nat.and_two_pow_sub_one_eq_mod n 8
  rw [BitVec.toNat_and]
  refine (hmask _).trans ?_
  rw [← BitVec.toNat_setWidth]
  exact congrArg BitVec.toNat hlow

/-! ## Equality -/

theorem lane_emitEq (x y : Value u64Ty) {k : Nat} (hk : k < 8) :
    lane (emitEq ops x y) k = laneMask (borrow (x ^^^ y).toNat (k + 1) = 1) := by
  refine lane_of_covers ?_ hk
  have hstep : ∀ (m : Value u64Ty) (n : Nat), n < 64 → Covers (zeroMarks (x ^^^ y)) m n →
      Covers (zeroMarks (x ^^^ y)) (ops.bitOr m (ops.shr m (ops.constant u64Ty n))) (n + n) := by
    intro m n hn h
    rw [shr_constant hops.mir m hn, hops.mir.bitOr]
    exact h.step
  have hmarks : ops.bitAnd (ops.bitAnd
      (ops.sub (ops.bitXor x y) (ops.constant u64Ty 0x0101010101010101))
      (ops.bitXor (ops.bitXor x y) (ops.constant u64Ty (2 ^ 64 - 1))))
      (ops.constant u64Ty 0x8080808080808080) = zeroMarks (x ^^^ y) := by
    simp only [hops.mir.bitAnd, hops.mir.sub, hops.mir.bitXor, hops.mir.constant]
    rfl
  rw [emitEq, hmarks]
  exact hstep _ 4 (by decide) (hstep _ 2 (by decide) (hstep _ 1 (by decide) (Covers.self _)))

theorem emitEq_exact_iff (x y : Value u64Ty) :
    (∀ k < 8, lane (emitEq ops x y) k = laneMask (lane x k = lane y k)) ↔
      ∀ k < 7, ¬ (lane x k = lane y k ∧ lane x (k + 1) ^^^ lane y (k + 1) = 1) := by
  have hzero : ∀ k, (x ^^^ y).toNat / 256 ^ k % 256 = 0 ↔ lane x k = lane y k := by
    intro k
    rw [← toNat_lane, lane_xor, ← BitVec.xor_eq_zero_iff, ← BitVec.toNat_inj]
    rfl
  have hone : ∀ k, (x ^^^ y).toNat / 256 ^ k % 256 = 1 ↔ lane x k ^^^ lane y k = 1 := by
    intro k
    rw [← toNat_lane, lane_xor, ← BitVec.toNat_inj]
    rfl
  have hexact := borrow_exact_iff (x ^^^ y).toNat 7
  simp only [hzero, hone] at hexact
  rw [← hexact]
  refine forall_congr' fun k => forall_congr' fun hk => ?_
  rw [lane_emitEq hops x y hk, laneMask_inj, decide_eq_decide]

/-! ## Comparisons -/

theorem cast_lane (x : Value u64Ty) {k : Nat} (hk : k < 8) :
    castValueToType ops.toMirOps (ops.shr x (ops.constant u64Ty (k * 8))) i8Ty = lane x k := by
  rw [shr_constant hops.mir x (by omega : k * 8 < 64), cast_unsigned hops.mir]
  refine BitVec.eq_of_getLsbD_eq fun j hj => ?_
  rw [getLsbD_lane x k hj, BitVec.getLsbD_setWidth, decide_eq_true hj, Bool.true_and,
    BitVec.getLsbD_ushiftRight, Nat.mul_comm]

theorem getLsbD_emitCompareLane {compare : Value i8Ty → Value i8Ty → Value boolImmediateTy}
    {holds : BitVec 8 → BitVec 8 → Bool} (hcompare : ∀ a b, compare a b = BitVec.ofBool (holds a b))
    (x y result : Value u64Ty) {k i : Nat} (hk : k < 8) (hi : i < 64) :
    (emitCompareLane ops compare x y result k).getLsbD i =
      (result.getLsbD i || (decide (i / 8 = k) && holds (lane x k) (lane y k))) := by
  have hmask : ∀ b, ((0#64 - (BitVec.ofBool b).setWidth 64) &&& 0xff#64) =
      if b then 0xff#64 else 0#64 := by decide
  have hcond : @castValueToType ops.toMirOps boolImmediateTy
      (BitVec.ofBool (holds (lane x k) (lane y k))) u64Ty =
      (BitVec.ofBool (holds (lane x k) (lane y k))).setWidth 64 := by
    rw [castValueToType_eq hops.mir, convert_of_not_signed (by intro h; cases h)]
  have hones : ∀ j, (0xff#64).getLsbD j = decide (j < 8) := fun j =>
    Nat.testBit_two_pow_sub_one 8 j
  rw [emitCompareLane]
  simp only [cast_lane hops _ hk, hcompare, hcond]
  rw [hops.mir.bitOr, shl_constant hops.mir _ (by omega : k * 8 < 64), hops.mir.bitAnd,
    hops.mir.sub, hops.mir.constant, hops.mir.constant, hmask, BitVec.getLsbD_or]
  congr 1
  rw [BitVec.getLsbD_shiftLeft, decide_eq_true hi, Bool.true_and]
  cases holds (lane x k) (lane y k) with
  | false =>
    rw [if_neg Bool.false_ne_true, BitVec.getLsbD_zero, Bool.and_false, Bool.and_false]
  | true =>
    rw [if_pos rfl, hones, Bool.and_true, ← decide_not, ← Bool.decide_and, decide_eq_decide]
    omega

/-- Every lane in its place. -/
theorem lane_emitCompare {compare : Value i8Ty → Value i8Ty → Value boolImmediateTy}
    {holds : BitVec 8 → BitVec 8 → Bool} (hcompare : ∀ a b, compare a b = BitVec.ofBool (holds a b))
    (x y : Value u64Ty) {k : Nat} (hk : k < 8) :
    lane (emitCompare ops compare x y) k = laneMask (holds (lane x k) (lane y k)) := by
  have hfold : ∀ n ≤ 8, ∀ i < 64,
      ((List.range n).foldl (emitCompareLane ops compare x y) (ops.constant u64Ty 0)).getLsbD i =
        (decide (i / 8 < n) && holds (lane x (i / 8)) (lane y (i / 8))) := by
    intro n hn i hi
    induction n with
    | zero =>
      rw [List.range_zero, List.foldl_nil, hops.mir.constant]
      exact BitVec.getLsbD_zero
    | succ n ih =>
      rw [List.range_succ, List.foldl_append, List.foldl_cons, List.foldl_nil,
        getLsbD_emitCompareLane hops hcompare x y _ (by omega) hi, ih (by omega)]
      by_cases hplace : i / 8 = n
      · rw [hplace, decide_eq_false (Nat.lt_irrefl n), decide_eq_true rfl,
          decide_eq_true (Nat.lt_succ_self n), Bool.false_and, Bool.false_or]
      · rw [decide_eq_false hplace, Bool.false_and, Bool.or_false]
        congr 1
        rw [decide_eq_decide]
        omega
  refine lane_eq fun j hj => ?_
  rw [getLsbD_laneMask _ hj, emitCompare, hfold 8 (Nat.le_refl 8) _ (by omega),
    (by omega : (8 * k + j) / 8 = k), decide_eq_true hk, Bool.true_and]

end Exact

/-- Bytes compare alike in both readings when their highest bits agree. -/
theorem slt_eq_ult_iff (a b : BitVec 8) : a.slt b = a.ult b ↔ a.msb = b.msb := by
  rw [BitVec.slt_eq_ult]
  cases a.msb <;> cases b.msb <;> cases a.ult b <;> decide

/-- Comparisons of signed lanes stand for those of the lanes' own type where the
    readings agree. -/
theorem less_exact_iff (sign : Signedness) (x y : Value u64Ty) :
    (∀ k < 8, (lane x k).slt (lane y k) = IntegerType.less ⟨8, sign⟩ (lane x k) (lane y k)) ↔
      sign = .signed ∨ ∀ k < 8, (lane x k).msb = (lane y k).msb := by
  by_cases hsign : sign = .signed
  · subst hsign
    exact iff_of_true (fun k _ => (if_pos rfl).symm) (Or.inl rfl)
  · have hless : ∀ a b, IntegerType.less ⟨8, sign⟩ a b = a.ult b := fun a b => if_neg hsign
    rw [or_iff_right hsign]
    refine forall_congr' fun k => forall_congr' fun _ => ?_
    rw [hless]
    exact slt_eq_ult_iff _ _

/-- The splatted byte is in every lane, and the other sequences leave in every
    lane what they should exactly where no borrow misleads them and signed
    comparisons are right. -/
theorem simdLanes_exact_iff {ops : LaneOps} (hops : ops.Documented) (sign : Signedness)
    (name : LaneIntrinsic) (x y : Value u64Ty) :
    (∀ b : Value ⟨8, sign⟩, ∃ bits, emitSplat ops b = .ok bits ∧ ∀ k < 8, lane bits k = b) ∧
      ((∀ k < 8, lane (name.emit ops x y) k = name.lanewise sign (lane x k) (lane y k)) ↔
        name.Exact sign x y) := by
  refine ⟨emitSplat_exact hops, ?_⟩
  cases name with
  | simdOr =>
    refine iff_of_true (fun k _ => ?_) trivial
    rw [LaneIntrinsic.emit, hops.mir.bitOr]
    exact lane_or x y k
  | simdEq => exact emitEq_exact_iff hops x y
  | simdLt =>
    refine Iff.trans (forall_congr' fun k => forall_congr' fun hk => ?_) (less_exact_iff sign x y)
    have hlt : ∀ a b : Value i8Ty, ops.lt a b = BitVec.ofBool (a.slt b) := fun a b => hops.mir.lt a b
    rw [LaneIntrinsic.emit, lane_emitCompare hops hlt x y hk]
    exact laneMask_inj
  | simdGe =>
    refine Iff.trans (forall_congr' fun k => forall_congr' fun hk => ?_) (less_exact_iff sign x y)
    have hge : ∀ a b : Value i8Ty, ops.ge a b = BitVec.ofBool (!a.slt b) := fun a b => hops.ge a b
    rw [LaneIntrinsic.emit, @lane_emitCompare _ hops _ (fun a b => !a.slt b) hge x y k hk]
    exact laneMask_inj.trans (Bool.not_inj_iff ..)

/-- Operations that compute what is documented. -/
def LaneOps.reference : LaneOps where
  toMirOps := MirOps.reference
  ge {ty} x y := BitVec.ofBool (!ty.less x y)

theorem LaneOps.reference_documented : LaneOps.reference.Documented :=
  ⟨MirOps.reference_documented, fun _ _ => rfl⟩

/-- Equality of a vector with itself. -/
theorem simdLanes_exact_iff_self :
    (∀ b : Value ⟨8, .unsigned⟩, ∃ bits, emitSplat LaneOps.reference b = .ok bits ∧
        ∀ k < 8, lane bits k = b) ∧
      ((∀ k < 8, lane (LaneIntrinsic.simdEq.emit LaneOps.reference 5 5) k =
          LaneIntrinsic.simdEq.lanewise .unsigned (lane 5 k) (lane 5 k)) ↔
        LaneIntrinsic.simdEq.Exact .unsigned 5 5) :=
  simdLanes_exact_iff LaneOps.reference_documented .unsigned .simdEq 5 5

/-- A zero lane below a one, compared with zero: both seem equal.  And 255 is
    less than 1 as a signed byte. -/
theorem simdLanes_slips :
    ¬ (∀ k < 8, lane (LaneIntrinsic.simdEq.emit LaneOps.reference 0x100 0) k =
        LaneIntrinsic.simdEq.lanewise .unsigned (lane 0x100 k) (lane 0 k)) ∧
      ¬ (∀ k < 8, lane (LaneIntrinsic.simdLt.emit LaneOps.reference 0xff 1) k =
        LaneIntrinsic.simdLt.lanewise .unsigned (lane 0xff k) (lane 1 k)) := by
  constructor
  · intro h
    exact absurd (h 1 (by decide)) (by decide)
  · intro h
    exact absurd (h 0 (by decide)) (by decide)

end Crabbit.Mir
