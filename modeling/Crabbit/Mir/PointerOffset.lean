/-
  Crabbit.Mir.PointerOffset

  Pointer offsets (`import_rvalue` and `scale_index`) and pointer differences
  (the arm of `ptr_offset_from` and `ptr_offset_from_unsigned`).

  The two intrinsics are lowered alike, with a division of unsigned numbers.  So
  a negative difference of pointers to elements of more than a byte is not the
  count it came from.
-/

import Crabbit.Mir.Ops
import Mathlib.Tactic.Ring

namespace Crabbit.Mir

open IntegerType

/-! ## The lowering -/

section Lowering

variable (ops : MirOps)

/-- `scale_index`. -/
def scaleIndex {ty : IntegerType} (index : Value ty) (elementSize : Nat) : Value ty :=
  if elementSize = 1 then index else ops.mul index (ops.constant ty elementSize)

/-- `BinOp::Offset` of a pointer to elements of a size. -/
def importOffset {ty : IntegerType} (elemSize : Nat) (lhs : Pointer) (rhs : Value ty) : Pointer :=
  ops.ptrOffset lhs (scaleIndex ops rhs elemSize)

/-- `ptr_offset_from` and `ptr_offset_from_unsigned`, which differ in the type of
    their destination. -/
def ptrOffsetFrom (destTy : IntegerType) (elemSize : Nat) (lhs rhs : Pointer) : Value destTy :=
  let lhs := ops.exposeAddress lhs
  let rhs := ops.exposeAddress rhs
  let diff := ops.sub lhs rhs
  if elemSize > 1 then
    castValueToType ops (ops.div diff (ops.constant usizeTy elemSize)) destTy
  else castValueToType ops diff destTy

end Lowering

/-! ## What it computes -/

section Computes

variable {ops : MirOps} (hops : ops.Documented)
include hops

theorem scaleIndex_eq {ty : IntegerType} (index : Value ty) (elementSize : Nat) :
    scaleIndex ops index elementSize = index * BitVec.ofNat ty.width elementSize := by
  rw [scaleIndex]
  split
  · next h => rw [h, BitVec.mul_one]
  · rw [hops.mul, hops.constant]

/-- The count times the size is added to the address. -/
theorem importOffset_eq (elemSize : Nat) (p : Pointer) (count : Value isizeTy) :
    importOffset ops elemSize p count = p + count * BitVec.ofNat 64 elemSize := by
  rw [importOffset, scaleIndex_eq hops]
  exact hops.ptrOffset .signed p _

/-- Counts add up, whether or not their sum wraps. -/
theorem importOffset_importOffset (elemSize : Nat) (p : Pointer) (a b : Value isizeTy) :
    importOffset ops elemSize (importOffset ops elemSize p a) b =
      importOffset ops elemSize p (a + b) := by
  rw [importOffset_eq hops, importOffset_eq hops, importOffset_eq hops, BitVec.add_mul,
    BitVec.add_assoc]

/-- The difference is divided as an unsigned number, and its bits are taken as
    the result. -/
theorem ptrOffsetFrom_eq {destTy : IntegerType} (hdest : destTy.width = 64) {elemSize : Nat}
    (hpos : 0 < elemSize) (hsize : elemSize < 2 ^ 64) (lhs rhs : Pointer) :
    (ptrOffsetFrom ops destTy elemSize lhs rhs).toNat = (lhs - rhs).toNat / elemSize := by
  have hcast : ∀ x : Value usizeTy, (castValueToType ops x destTy).toNat = x.toNat := by
    intro x
    rw [castValueToType_eq hops, IntegerType.convert, if_neg (by decide : ¬ usizeTy.IsSigned),
      BitVec.toNat_setWidth, hdest]
    exact Nat.mod_eq_of_lt x.isLt
  have hdiff : ops.sub (ops.exposeAddress lhs) (ops.exposeAddress rhs) = lhs - rhs := by
    rw [hops.sub, hops.exposeAddress, hops.exposeAddress]
  rw [ptrOffsetFrom]
  simp only [hdiff]
  split
  · next hbig =>
    have hdivisor : (BitVec.ofNat usizeTy.width elemSize).toNat = elemSize :=
      Nat.mod_eq_of_lt hsize
    have hne : BitVec.ofNat usizeTy.width elemSize ≠ 0 := by
      intro h
      rw [h] at hdivisor
      exact absurd hdivisor (Nat.ne_of_lt hpos)
    rw [hcast, hops.constant, hops.div _ _ hne, if_neg (by decide : ¬ usizeTy.IsSigned),
      BitVec.toNat_udiv, hdivisor]
  · next hsmall =>
    have hone : elemSize = 1 := by omega
    rw [hcast, hone, Nat.div_one]

end Computes

/-! ## Inverse -/

/-- The offset of a base by a count stays in the address space. -/
def InAddressSpace (elemSize : Nat) (p : Pointer) (n : Value isizeTy) : Prop :=
  0 ≤ (p.toNat : Int) + n.toInt * elemSize ∧ (p.toNat : Int) + n.toInt * elemSize < 2 ^ 64

instance (elemSize : Nat) (p : Pointer) (n : Value isizeTy) :
    Decidable (InAddressSpace elemSize p n) :=
  inferInstanceAs (Decidable (_ ∧ _))

/-- The intrinsics give the count back that the base was offset by, the unsigned
    one where it is not negative, and offsets compose. -/
def OffsetInverse (ops : MirOps) (elemSize : Nat) (p : Pointer) (n : Value isizeTy) : Prop :=
  isizeTy.value (ptrOffsetFrom ops isizeTy elemSize (importOffset ops elemSize p n) p) =
      isizeTy.value n ∧
    (0 ≤ n.toInt →
      usizeTy.value (ptrOffsetFrom ops usizeTy elemSize (importOffset ops elemSize p n) p) =
        isizeTy.value n) ∧
    ∀ a b : Value isizeTy, importOffset ops elemSize (importOffset ops elemSize p a) b =
      importOffset ops elemSize p (a + b)

/-- The difference of the two addresses. -/
theorem toNat_importOffset_sub {ops : MirOps} (hops : ops.Documented) {elemSize : Nat}
    (hpos : 0 < elemSize) {p : Pointer} {n : Value isizeTy} (h : InAddressSpace elemSize p n) :
    ((importOffset ops elemSize p n - p).toNat : Int) =
      if 0 ≤ n.toInt then n.toInt * elemSize else n.toInt * elemSize + 2 ^ 64 := by
  have hdiff : importOffset ops elemSize p n - p = BitVec.ofInt 64 (n.toInt * elemSize) := by
    rw [importOffset_eq hops, BitVec.add_comm, BitVec.add_sub_cancel, BitVec.ofInt_mul,
      BitVec.ofInt_toInt,
      BitVec.ofInt_natCast]
  obtain ⟨hlow, hhigh⟩ := h
  have hp := p.isLt
  rw [hdiff, BitVec.toNat_ofInt]
  split
  · next hn =>
    have hproduct : 0 ≤ n.toInt * elemSize := Int.mul_nonneg hn (Int.natCast_nonneg _)
    generalize n.toInt * (elemSize : Int) = z at *
    omega
  · next hn =>
    have hproduct : n.toInt * elemSize < 0 := Int.mul_neg_of_neg_of_pos (by omega) (by omega)
    generalize n.toInt * (elemSize : Int) = z at *
    omega

/-- What the division leaves of the difference. -/
theorem ptrOffsetFrom_importOffset {ops : MirOps} (hops : ops.Documented) {destTy : IntegerType}
    (hdest : destTy.width = 64) {elemSize : Nat} (hpos : 0 < elemSize) (hsize : elemSize < 2 ^ 64)
    {p : Pointer} {n : Value isizeTy} (h : InAddressSpace elemSize p n) :
    ((ptrOffsetFrom ops destTy elemSize (importOffset ops elemSize p n) p).toNat : Int) =
      if 0 ≤ n.toInt then n.toInt else n.toInt + 2 ^ 64 / elemSize := by
  have hne : (elemSize : Int) ≠ 0 := by omega
  rw [ptrOffsetFrom_eq hops hdest hpos hsize, Int.natCast_ediv, toNat_importOffset_sub hops hpos h]
  split
  · exact Int.mul_ediv_cancel _ hne
  · rw [Int.add_comm, Int.add_mul_ediv_right _ _ hne, Int.add_comm]

/-- A count that is not negative comes back, in both types. -/
theorem ptrOffsetFrom_of_nonneg {ops : MirOps} (hops : ops.Documented) (sign : Llvm.Signedness)
    {elemSize : Nat} (hpos : 0 < elemSize) (hsize : elemSize < 2 ^ 64) {p : Pointer}
    {n : Value isizeTy} (h : InAddressSpace elemSize p n) (hn : 0 ≤ n.toInt) :
    (⟨64, sign⟩ : IntegerType).value
      (ptrOffsetFrom ops ⟨64, sign⟩ elemSize (importOffset ops elemSize p n) p) = n.toInt := by
  have hresult := ptrOffsetFrom_importOffset hops
    (show (⟨64, sign⟩ : IntegerType).width = 64 from rfl) hpos hsize h
  have hlt : n.toInt < 2 ^ 63 := BitVec.toInt_lt
  rw [if_pos hn] at hresult
  rw [IntegerType.value]
  split
  · rw [BitVec.toInt_eq_toNat_of_lt]
    · exact hresult
    · show 2 * _ < 2 ^ 64
      omega
  · exact hresult

/-- What comes back of a negative count. -/
theorem toInt_ptrOffsetFrom_of_neg {ops : MirOps} (hops : ops.Documented) {elemSize : Nat}
    (hpos : 0 < elemSize) (hsize : elemSize < 2 ^ 64) {p : Pointer} {n : Value isizeTy}
    (h : InAddressSpace elemSize p n) (hn : n.toInt < 0) :
    isizeTy.value (ptrOffsetFrom ops isizeTy elemSize (importOffset ops elemSize p n) p) =
      n.toInt ↔ elemSize = 1 := by
  have hresult := ptrOffsetFrom_importOffset hops (show isizeTy.width = 64 from rfl) hpos hsize h
  have hlow : -2 ^ 63 ≤ n.toInt := BitVec.le_toInt n
  rw [if_neg (by omega)] at hresult
  have hvalue : ∀ x : Value isizeTy, isizeTy.value x =
      if 2 * x.toNat < 2 ^ 64 then (x.toNat : Int) else x.toNat - 2 ^ 64 := fun x =>
    (if_pos rfl : isizeTy.value x = x.toInt).trans (BitVec.toInt_eq_toNat_cond x)
  rw [hvalue, hresult]
  constructor
  · intro hinverse
    -- The quotient of the whole address space is neither nothing nor all of it.
    have hquot : 0 < 2 ^ 64 / elemSize := Nat.div_pos (by omega) hpos
    have hcast : (2 : Int) ^ 64 / elemSize = ((2 ^ 64 / elemSize : Nat) : Int) := by
      rw [Int.natCast_ediv]
      rfl
    by_cases hone : elemSize = 1
    · exact hone
    · have hhalf : 2 ^ 64 / elemSize ≤ 2 ^ 64 / 2 := Nat.div_le_div_left (by omega) (by omega)
      rw [hcast] at hresult hinverse
      split at hinverse <;> omega
  · intro hone
    rw [hone] at hresult ⊢
    split <;> omega

/-- The intrinsics give the count back where it is not negative or counts bytes:
    otherwise the unsigned division turns it into a huge number. -/
theorem offsetInverse_iff {ops : MirOps} (hops : ops.Documented) {elemSize : Nat}
    (hpos : 0 < elemSize) (hsize : elemSize < 2 ^ 64) (p : Pointer) (n : Value isizeTy)
    (h : InAddressSpace elemSize p n) :
    OffsetInverse ops elemSize p n ↔ 0 ≤ n.toInt ∨ elemSize = 1 := by
  have hvalue : isizeTy.value n = n.toInt := if_pos rfl
  rw [OffsetInverse, hvalue]
  have hcompose := importOffset_importOffset hops elemSize p
  by_cases hn : 0 ≤ n.toInt
  · have hinverse := ptrOffsetFrom_of_nonneg hops .signed hpos hsize h hn
    have hinverse' := ptrOffsetFrom_of_nonneg hops .unsigned hpos hsize h hn
    exact ⟨fun _ => Or.inl hn, fun _ => ⟨hinverse, fun _ => hinverse', hcompose⟩⟩
  · rw [toInt_ptrOffsetFrom_of_neg hops hpos hsize h (by omega)]
    constructor
    · exact fun h => Or.inr h.1
    · intro hcase
      exact ⟨hcase.resolve_left hn, fun h => absurd h hn, hcompose⟩

/-- One element before, of four bytes each. -/
theorem offsetInverse_iff_back : OffsetInverse MirOps.reference 4 4096 (-1) ↔
    0 ≤ (-1 : Value isizeTy).toInt ∨ 4 = 1 :=
  offsetInverse_iff MirOps.reference_documented (by decide) (by decide) 4096 (-1) (by decide)

/-- The difference of the element before is not -1. -/
theorem offsetInverse_back : ¬ ∀ (ops : MirOps), ops.Documented → ∀ (elemSize : Nat),
    0 < elemSize → elemSize < 2 ^ 64 → ∀ (p : Pointer) (n : Value isizeTy),
      InAddressSpace elemSize p n → OffsetInverse ops elemSize p n := by
  intro h
  have hback := h MirOps.reference MirOps.reference_documented 4 (by decide) (by decide) 4096 (-1)
    (by decide)
  exact absurd hback.1 (by decide)

end Crabbit.Mir
