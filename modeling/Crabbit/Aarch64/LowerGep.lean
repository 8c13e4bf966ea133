/-
  Crabbit.Aarch64.LowerGep

  Lowering of `llvm.getelementptr` to machine code
  (`passes/aarch64/isel_memory_abi.rs`).

  The x86-64 lowering has the same walk over another layout, so the walk is a
  function of the layout.  The first index is treated like the later ones: it
  descends into the source element type.
-/

import Mathlib.Data.BitVec
import Mathlib.Tactic.Ring
import Crabbit.Aarch64.StackLayout
import Crabbit.Llvm.Function

namespace Crabbit.Aarch64

open Crabbit.Llvm (Ty Value GepIndex)

/-! ## Layouts -/

/-- The layout functions of a lowering; they fail on types it does not
    support. -/
structure MemoryLayout where
  stackSizeOf : Ty → Option Nat
  stackAlignOf : Ty → Option Nat
  aggregateFieldLayout : Ty → Option (List (Nat × Ty))

def memoryLayout : MemoryLayout := ⟨stackSizeOf, stackAlignOf, aggregateFieldLayout⟩

namespace MemoryLayout

variable (layout : MemoryLayout)

/-- `indexed_element`: elements of an array are apart by their padded size,
    those of another type by its size. -/
def indexedElement : Ty → Option (Ty × Nat)
  | .array elem _ => (layout.stackSizeOf elem).bind fun size =>
      if size = 0 then some (elem, 0)
      else (layout.stackAlignOf elem).map fun align => (elem, alignTo size align)
  | ty => (layout.stackSizeOf ty).map fun size => (ty, size)

/-- `struct_field_offset`: the offset and type of the field a constant names;
    `some none` where it names no field. -/
def structFieldOffset : Ty → Option Nat → Option (Option (Nat × Ty))
  | .struct fields, some index => (layout.aggregateFieldLayout (.struct fields)).bind fun fields =>
      fields[index]?.map some
  | .opaqueStruct, some _ => none
  | _, _ => some none

end MemoryLayout

/-! ## The walk -/

/-- The displacement of a `LoweredValue::Address` from the register of the
    base: a constant, and the registers of indices with what they are
    multiplied by. -/
structure LoweredGep where
  constantOffset : Nat
  dynamicOffset : List (Value × Nat)
  deriving DecidableEq

/-- The constant an index is given as. -/
def indexConst : GepIndex → Option Nat
  | .constant value => some value
  | .value _ => none

/-- Add an index over elements of a size. -/
def LoweredGep.addIndex (address : LoweredGep) (index : GepIndex) (elementSize : Nat) :
    LoweredGep :=
  match index with
  | .constant value =>
    { address with constantOffset := address.constantOffset + value * elementSize }
  | .value v => { address with dynamicOffset := address.dynamicOffset ++ [(v, elementSize)] }

/-- The loop of `lower_gep`. -/
def MemoryLayout.lowerIndices (layout : MemoryLayout) :
    Ty → List GepIndex → LoweredGep → Option LoweredGep
  | _, [], address => some address
  | currentTy, index :: indices, address =>
      (layout.structFieldOffset currentTy (indexConst index)).bind fun field =>
        match field with
        | some (fieldOffset, fieldTy) => layout.lowerIndices fieldTy indices
            { address with constantOffset := address.constantOffset + fieldOffset }
        | none => (layout.indexedElement currentTy).bind fun element =>
            layout.lowerIndices element.1 indices (address.addIndex index element.2)

/-- `lower_gep`, as a function of the layout. -/
def MemoryLayout.lowerGep (layout : MemoryLayout) (indices : List GepIndex)
    (sourceElemType : Ty) : Option LoweredGep :=
  layout.lowerIndices sourceElemType indices ⟨0, []⟩

def lowerGep (indices : List GepIndex) (sourceElemType : Ty) : Option LoweredGep :=
  memoryLayout.lowerGep indices sourceElemType

/-! ## The code -/

/-- What the multiplications and additions leave, the registers of the indices
    holding `reg`. -/
def scaledSum (reg : Value → BitVec 64) : List (Value × Nat) → BitVec 64
  | [] => 0
  | (v, scale) :: rest => reg v * BitVec.ofNat 64 scale + scaledSum reg rest

def LoweredGep.displacement (address : LoweredGep) (reg : Value → BitVec 64) : BitVec 64 :=
  scaledSum reg address.dynamicOffset + BitVec.ofNat 64 address.constantOffset

theorem scaledSum_append (reg : Value → BitVec 64) (a b : List (Value × Nat)) :
    scaledSum reg (a ++ b) = scaledSum reg a + scaledSum reg b := by
  induction a with
  | nil => exact (BitVec.zero_add _).symm
  | cons p a ih => rw [List.cons_append, scaledSum, scaledSum, ih, BitVec.add_assoc]

/-! ## What each index adds -/

/-- What an index over elements of a size adds. -/
def indexAmount (reg : Value → BitVec 64) (index : GepIndex) (elementSize : Nat) : BitVec 64 :=
  match index with
  | .constant value => BitVec.ofNat 64 value * BitVec.ofNat 64 elementSize
  | .value v => reg v * BitVec.ofNat 64 elementSize

/-- The walk of `lower_gep`, with what each index adds to the displacement. -/
def MemoryLayout.gepAmounts (layout : MemoryLayout) (reg : Value → BitVec 64) :
    Ty → List GepIndex → Option (List (BitVec 64))
  | _, [] => some []
  | currentTy, index :: indices =>
      (layout.structFieldOffset currentTy (indexConst index)).bind fun field =>
        match field with
        | some (fieldOffset, fieldTy) =>
            (layout.gepAmounts reg fieldTy indices).map (BitVec.ofNat 64 fieldOffset :: ·)
        | none => (layout.indexedElement currentTy).bind fun element =>
            (layout.gepAmounts reg element.1 indices).map (indexAmount reg index element.2 :: ·)

theorem displacement_addIndex (address : LoweredGep) (reg : Value → BitVec 64) (index : GepIndex)
    (size : Nat) : (address.addIndex index size).displacement reg =
      address.displacement reg + indexAmount reg index size := by
  cases index with
  | constant c =>
      simp only [LoweredGep.addIndex, LoweredGep.displacement, indexAmount, BitVec.ofNat_add,
        BitVec.ofNat_mul]
      ring
  | value v =>
      simp only [LoweredGep.addIndex, LoweredGep.displacement, indexAmount, scaledSum_append,
        scaledSum]
      ring

theorem displacement_addField (address : LoweredGep) (reg : Value → BitVec 64) (offset : Nat) :
    LoweredGep.displacement
        { address with constantOffset := address.constantOffset + offset } reg =
      address.displacement reg + BitVec.ofNat 64 offset := by
  simp only [LoweredGep.displacement, BitVec.ofNat_add]
  ring

namespace MemoryLayout

variable {layout : MemoryLayout} {reg : Value → BitVec 64}

/-- The walk fails where that of the amounts does, and leaves their sum. -/
theorem lowerIndices_displacement (indices : List GepIndex) (ty : Ty) (address : LoweredGep) :
    (layout.lowerIndices ty indices address).map (·.displacement reg) =
      (layout.gepAmounts reg ty indices).map fun amounts =>
        address.displacement reg + amounts.sum := by
  induction indices generalizing ty address with
  | nil => exact congrArg some (BitVec.add_zero _).symm
  | cons index rest ih =>
      have hadd : ∀ (rest : Option (List (BitVec 64))) (amount : BitVec 64),
          (rest.map fun amounts => address.displacement reg + amount + amounts.sum) =
            (rest.map (amount :: ·)).map fun amounts => address.displacement reg + amounts.sum := by
        intro rest amount
        rw [Option.map_map]
        refine congrArg (Option.map · rest) (funext fun amounts => ?_)
        rw [Function.comp_apply, List.sum_cons, BitVec.add_assoc]
      rw [lowerIndices, gepAmounts]
      cases layout.structFieldOffset ty (indexConst index) with
      | none => rfl
      | some field =>
          cases field with
          | some found =>
              simp only [Option.bind_some]
              rw [ih found.2, displacement_addField, hadd]
          | none =>
              simp only [Option.bind_some]
              cases layout.indexedElement ty with
              | none => rfl
              | some element =>
                  simp only [Option.bind_some]
                  rw [ih element.1, displacement_addIndex, hadd]

/-- The displacement is the sum of the amounts. -/
theorem lowerGep_displacement (indices : List GepIndex) (ty : Ty) :
    (layout.lowerGep indices ty).map (·.displacement reg) =
      (layout.gepAmounts reg ty indices).map List.sum := by
  rw [lowerGep, lowerIndices_displacement]
  refine congrArg (Option.map · _) (funext fun amounts => ?_)
  exact BitVec.zero_add _

/-- The first indices add what they add among all. -/
theorem gepAmounts_take {ty : Ty} {indices : List GepIndex} {amounts : List (BitVec 64)}
    (h : layout.gepAmounts reg ty indices = some amounts) (n : Nat) :
    layout.gepAmounts reg ty (indices.take n) = some (amounts.take n) ∧
      amounts.length = indices.length := by
  induction indices generalizing ty amounts n with
  | nil =>
      obtain rfl := Option.some.inj h
      rw [List.take_nil, List.take_nil]
      exact ⟨rfl, rfl⟩
  | cons index rest ih =>
      rw [gepAmounts] at h
      obtain ⟨field, hfield, h⟩ := Option.bind_eq_some_iff.mp h
      cases field with
      | some found =>
          obtain ⟨tail, htail, rfl⟩ := Option.map_eq_some_iff.mp h
          refine ⟨?_, congrArg (· + 1) (ih htail n).2⟩
          cases n with
          | zero => rfl
          | succ n =>
              rw [List.take_succ_cons, List.take_succ_cons, gepAmounts, hfield]
              simp only [Option.bind_some]
              rw [(ih htail n).1]
              rfl
      | none =>
          obtain ⟨element, helement, h⟩ := Option.bind_eq_some_iff.mp h
          obtain ⟨tail, htail, rfl⟩ := Option.map_eq_some_iff.mp h
          refine ⟨?_, congrArg (· + 1) (ih htail n).2⟩
          cases n with
          | zero => rfl
          | succ n =>
              rw [List.take_succ_cons, List.take_succ_cons, gepAmounts, hfield]
              simp only [Option.bind_some]
              rw [helement, Option.bind_some, (ih htail n).1]
              rfl

end MemoryLayout

end Crabbit.Aarch64
