/-
  Crabbit.Mir.Ops

  The operations of the `mir` dialect the importer's integer sequences are made
  of.  The dialect is a crate of its own: what its operations compute is a
  parameter here, with what the importer relies on as assumptions.
-/

import Crabbit.Llvm.Types
import Mathlib.Tactic.TypeStar

namespace Crabbit.Mir

open Crabbit.Llvm (Signedness)

/-! ## Integer types -/

structure IntegerType where
  width : Nat
  signedness : Signedness
  deriving DecidableEq

namespace IntegerType

abbrev usizeTy : IntegerType := ⟨64, .unsigned⟩

abbrev isizeTy : IntegerType := ⟨64, .signed⟩

abbrev u64Ty : IntegerType := ⟨64, .unsigned⟩

abbrev u128Ty : IntegerType := ⟨128, .unsigned⟩

/-- `bool_immediate_ty`. -/
abbrev boolImmediateTy : IntegerType := ⟨1, .signless⟩

/-- `bool_storage_ty`. -/
abbrev boolStorageTy : IntegerType := ⟨8, .signless⟩

def IsSigned (ty : IntegerType) : Prop := ty.signedness = .signed

instance (ty : IntegerType) : Decidable ty.IsSigned :=
  inferInstanceAs (Decidable (ty.signedness = .signed))

end IntegerType

open IntegerType

/-- The values of an integer type. -/
abbrev Value (ty : IntegerType) : Type := BitVec ty.width

/-- The integer a value of a type stands for. -/
def IntegerType.value (ty : IntegerType) (x : Value ty) : Int :=
  if ty.IsSigned then x.toInt else x.toNat

/-- A thin pointer, by its address. -/
abbrev Pointer : Type := BitVec 64

/-! ## Operations -/

/-- What the operations leave, at every integer type. -/
structure MirOps where
  constant : (ty : IntegerType) → Nat → Value ty
  add : {ty : IntegerType} → Value ty → Value ty → Value ty
  sub : {ty : IntegerType} → Value ty → Value ty → Value ty
  mul : {ty : IntegerType} → Value ty → Value ty → Value ty
  div : {ty : IntegerType} → Value ty → Value ty → Value ty
  bitAnd : {ty : IntegerType} → Value ty → Value ty → Value ty
  bitOr : {ty : IntegerType} → Value ty → Value ty → Value ty
  bitXor : {ty : IntegerType} → Value ty → Value ty → Value ty
  shl : {ty : IntegerType} → Value ty → Value ty → Value ty
  shr : {ty : IntegerType} → Value ty → Value ty → Value ty
  signAwareShr : {ty : IntegerType} → Value ty → Value ty → Value ty
  eq : {ty : IntegerType} → Value ty → Value ty → Value boolImmediateTy
  ne : {ty : IntegerType} → Value ty → Value ty → Value boolImmediateTy
  lt : {ty : IntegerType} → Value ty → Value ty → Value boolImmediateTy
  gt : {ty : IntegerType} → Value ty → Value ty → Value boolImmediateTy
  cast : {ty : IntegerType} → (target : IntegerType) → Value ty → Value target
  ptrOffset : {ty : IntegerType} → Pointer → Value ty → Pointer
  exposeAddress : Pointer → Value usizeTy

/-- The order of two values of a type. -/
def IntegerType.less (ty : IntegerType) (x y : Value ty) : Bool :=
  if ty.IsSigned then x.slt y else x.ult y

/-- A right shift of a value of a type. -/
def IntegerType.shiftRight (ty : IntegerType) (x : Value ty) (amount : Nat) : Value ty :=
  if ty.IsSigned then x.sshiftRight amount else x >>> amount

/-- A value extended or truncated to another type. -/
def IntegerType.convert (ty target : IntegerType) (x : Value ty) : Value target :=
  if ty.IsSigned then x.signExtend target.width else x.setWidth target.width

theorem IntegerType.convert_of_signed {ty : IntegerType} (h : ty.IsSigned) (target : IntegerType)
    (x : Value ty) : ty.convert target x = x.signExtend target.width := if_pos h

theorem IntegerType.convert_of_not_signed {ty : IntegerType} (h : ¬ ty.IsSigned)
    (target : IntegerType) (x : Value ty) : ty.convert target x = x.setWidth target.width :=
  if_neg h

/-- What the importer relies on: arithmetic wraps; comparisons, right shifts,
    divisions and casts follow the signedness of the operand's type; shifts are
    by less than the width; a pointer is its address, and offsets of the width of
    an address are added to it. -/
structure MirOps.Documented (ops : MirOps) : Prop where
  constant : ∀ ty bits, ops.constant ty bits = BitVec.ofNat ty.width bits
  add : ∀ {ty} (x y : Value ty), ops.add x y = x + y
  sub : ∀ {ty} (x y : Value ty), ops.sub x y = x - y
  mul : ∀ {ty} (x y : Value ty), ops.mul x y = x * y
  div : ∀ {ty} (x y : Value ty), y ≠ 0 →
    ops.div x y = if ty.IsSigned then x.sdiv y else x / y
  bitAnd : ∀ {ty} (x y : Value ty), ops.bitAnd x y = x &&& y
  bitOr : ∀ {ty} (x y : Value ty), ops.bitOr x y = x ||| y
  bitXor : ∀ {ty} (x y : Value ty), ops.bitXor x y = x ^^^ y
  shl : ∀ {ty} (x y : Value ty), y.toNat < ty.width → ops.shl x y = x <<< y.toNat
  shr : ∀ {ty} (x y : Value ty), ¬ ty.IsSigned → y.toNat < ty.width →
    ops.shr x y = x >>> y.toNat
  signAwareShr : ∀ {ty} (x y : Value ty), y.toNat < ty.width →
    ops.signAwareShr x y = ty.shiftRight x y.toNat
  eq : ∀ {ty} (x y : Value ty), ops.eq x y = BitVec.ofBool (x = y)
  ne : ∀ {ty} (x y : Value ty), ops.ne x y = BitVec.ofBool (x ≠ y)
  lt : ∀ {ty} (x y : Value ty), ops.lt x y = BitVec.ofBool (ty.less x y)
  gt : ∀ {ty} (x y : Value ty), ops.gt x y = BitVec.ofBool (ty.less y x)
  cast : ∀ {ty} (target : IntegerType) (x : Value ty), ops.cast target x = ty.convert target x
  ptrOffset : ∀ (sign : Signedness) (p : Pointer) (x : Value ⟨64, sign⟩), ops.ptrOffset p x = p + x
  exposeAddress : ∀ p, ops.exposeAddress p = p

/-- Operations that compute what is documented, and shift by the amount's
    remainder. -/
def MirOps.reference : MirOps where
  constant ty bits := BitVec.ofNat ty.width bits
  add x y := x + y
  sub x y := x - y
  mul x y := x * y
  div {ty} x y := if ty.IsSigned then x.sdiv y else x / y
  bitAnd x y := x &&& y
  bitOr x y := x ||| y
  bitXor x y := x ^^^ y
  shl {ty} x y := x <<< (y.toNat % ty.width)
  shr {ty} x y := x >>> (y.toNat % ty.width)
  signAwareShr {ty} x y := ty.shiftRight x (y.toNat % ty.width)
  eq x y := BitVec.ofBool (x = y)
  ne x y := BitVec.ofBool (x ≠ y)
  lt {ty} x y := BitVec.ofBool (ty.less x y)
  gt {ty} x y := BitVec.ofBool (ty.less y x)
  cast {ty} target x := ty.convert target x
  ptrOffset p x := p + x.setWidth 64
  exposeAddress p := p

theorem MirOps.reference_documented : MirOps.reference.Documented where
  constant _ _ := rfl
  add _ _ := rfl
  sub _ _ := rfl
  mul _ _ := rfl
  div _ _ _ := rfl
  bitAnd _ _ := rfl
  bitOr _ _ := rfl
  bitXor _ _ := rfl
  shl x y h := by
    show x <<< (y.toNat % _) = x <<< y.toNat
    rw [Nat.mod_eq_of_lt h]
  shr x y _ h := by
    show x >>> (y.toNat % _) = x >>> y.toNat
    rw [Nat.mod_eq_of_lt h]
  signAwareShr x y h := by
    show IntegerType.shiftRight _ x (y.toNat % _) = _
    rw [Nat.mod_eq_of_lt h]
  eq _ _ := rfl
  ne _ _ := rfl
  lt _ _ := rfl
  gt _ _ := rfl
  cast _ _ := rfl
  ptrOffset sign p x := by
    show p + x.setWidth 64 = p + x
    rw [BitVec.setWidth_eq]
  exposeAddress _ := rfl

/-! ## Casts -/

/-- `cast_value_to_type`: a value that has the type already stays as it is. -/
def castValueToType (ops : MirOps) {ty : IntegerType} (x : Value ty) (target : IntegerType) :
    Value target :=
  if h : ty = target then h ▸ x else ops.cast target x

theorem castValueToType_eq {ops : MirOps} (hops : ops.Documented) {ty : IntegerType} (x : Value ty)
    (target : IntegerType) : castValueToType ops x target = ty.convert target x := by
  rw [castValueToType]
  split
  · next h =>
    subst h
    rw [IntegerType.convert]
    split
    · exact (BitVec.signExtend_eq x).symm
    · exact (BitVec.setWidth_eq x).symm
  · exact hops.cast target x

end Crabbit.Mir
