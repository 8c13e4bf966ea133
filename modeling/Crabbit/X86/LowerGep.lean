/-
  Crabbit.X86.LowerGep

  Lowering of `llvm.getelementptr` on x86-64
  (`passes/x86_64_darwin/isel_memory_abi.rs`): the walk of the AArch64 lowering
  over the layouts of this one, which has no floating-point types.
-/

import Crabbit.Aarch64.LowerGep
import Crabbit.X86.CallLowering

namespace Crabbit.X86

open Crabbit.Llvm (Ty Value GepIndex)
open Crabbit.Aarch64 (MemoryLayout LoweredGep)

/-! ## Layouts -/

/-- The fields of a struct with their offsets, those before them ending at
    `offset`; none where `aggregate_field_layout` fails. -/
def fieldsLayout : List Ty → Nat → Option (List (Nat × Ty))
  | [], _ => some []
  | field :: fields, offset => (stackSizeOf field).toOption.bind fun size =>
      if size = 0 then (fieldsLayout fields offset).map fun layout => (offset, field) :: layout
      else (stackAlignOf field).toOption.bind fun align =>
        (fieldsLayout fields (alignTo offset align + size)).map fun layout =>
          (alignTo offset align, field) :: layout

/-- `aggregate_field_layout`. -/
def aggregateFieldLayout : Ty → Option (List (Nat × Ty))
  | .unit | .void => some []
  | .array elem len => (stackSizeOf elem).toOption.bind fun size =>
      if size = 0 then some []
      else (stackAlignOf elem).toOption.map fun align =>
        (List.range len).map fun index => (index * alignTo size align, elem)
  | .struct fields => fieldsLayout fields 0
  | _ => none

def memoryLayout : MemoryLayout where
  stackSizeOf ty := (stackSizeOf ty).toOption
  stackAlignOf ty := (stackAlignOf ty).toOption
  aggregateFieldLayout

def lowerGep (indices : List GepIndex) (sourceElemType : Ty) : Option LoweredGep :=
  memoryLayout.lowerGep indices sourceElemType

/-! ## Types both lowerings support -/

mutual

theorem stackAlignOf_aarch64 : ∀ (ty : Ty) {align : Nat}, stackAlignOf ty = .ok align →
    Aarch64.stackAlignOf ty = some align
  | .unit, _, h => by cases h; rfl
  | .void, _, h => by cases h; rfl
  | .int _ _, _, h => by cases h; rfl
  | .pointer, _, h => by cases h; rfl
  | .array elem _, _, h => stackAlignOf_aarch64 elem h
  | .struct fields, _, h => fieldsAlign_aarch64 fields h

theorem fieldsAlign_aarch64 : ∀ (fields : List Ty) {start align : Nat},
    fieldsAlign fields start = .ok align → Aarch64.fieldsAlign fields start = some align
  | [], _, _, h => by cases h; rfl
  | field :: fields, start, _, h => by
      obtain ⟨a, ha, hrest⟩ := ok_of_bind h
      rw [Aarch64.fieldsAlign, stackAlignOf_aarch64 field ha]
      exact fieldsAlign_aarch64 fields hrest

end

mutual

theorem stackSizeOf_aarch64 : ∀ (ty : Ty) {size : Nat}, stackSizeOf ty = .ok size →
    Aarch64.stackSizeOf ty = some size
  | .unit, _, h => by cases h; rfl
  | .void, _, h => by cases h; rfl
  | .int _ _, _, h => by cases h; rfl
  | .pointer, _, h => by cases h; rfl
  | .array elem len, _, h => by
      obtain ⟨size, hsize, h⟩ := ok_of_bind h
      rw [Aarch64.stackSizeOf, stackSizeOf_aarch64 elem hsize, Option.bind_some]
      split at h
      · rename_i hzero
        cases h
        rw [if_pos hzero]
      · rename_i hzero
        obtain ⟨align, halign, h⟩ := ok_of_bind h
        cases h
        rw [if_neg hzero, stackAlignOf_aarch64 elem halign]
        rfl
  | .struct [], _, h => by cases h; rfl
  | .struct (field :: fields), _, h => by
      obtain ⟨unpadded, hend, h⟩ := ok_of_bind h
      obtain ⟨align, halign, h⟩ := ok_of_bind h
      cases h
      rw [Aarch64.stackSizeOf, fieldsEnd_aarch64 _ hend, Option.bind_some,
        fieldsAlign_aarch64 _ halign]
      rfl

theorem fieldsEnd_aarch64 : ∀ (fields : List Ty) {offset stop : Nat},
    fieldsEnd fields offset = .ok stop → Aarch64.fieldsEnd fields offset = some stop
  | [], _, _, h => by cases h; rfl
  | field :: fields, offset, _, h => by
      obtain ⟨size, hsize, h⟩ := ok_of_bind h
      rw [Aarch64.fieldsEnd, stackSizeOf_aarch64 field hsize, Option.bind_some]
      split at h
      · rename_i hzero
        rw [if_pos hzero]
        exact fieldsEnd_aarch64 fields h
      · rename_i hzero
        obtain ⟨align, halign, h⟩ := ok_of_bind h
        rw [if_neg hzero, stackAlignOf_aarch64 field halign]
        exact fieldsEnd_aarch64 fields h

end

theorem eq_ok_of_toOption {ε α : Type} {x : Except ε α} {a : α} (h : x.toOption = some a) :
    x = .ok a := by
  cases x with
  | error e => cases h
  | ok b => exact congrArg Except.ok (Option.some.inj h)

theorem fieldsLayout_aarch64 (fields : List Ty) {offset : Nat} {layout : List (Nat × Ty)}
    (h : fieldsLayout fields offset = some layout) :
    Aarch64.fieldsLayout fields offset = some layout := by
  induction fields generalizing offset layout with
  | nil => exact h
  | cons field fields ih =>
      obtain ⟨size, hsize, h⟩ := Option.bind_eq_some_iff.mp h
      rw [Aarch64.fieldsLayout, stackSizeOf_aarch64 field (eq_ok_of_toOption hsize),
        Option.bind_some]
      split at h
      · rename_i hzero
        obtain ⟨layout', hlayout, rfl⟩ := Option.map_eq_some_iff.mp h
        rw [if_pos hzero, ih hlayout]
        rfl
      · rename_i hzero
        obtain ⟨align, halign, h⟩ := Option.bind_eq_some_iff.mp h
        obtain ⟨layout', hlayout, rfl⟩ := Option.map_eq_some_iff.mp h
        rw [if_neg hzero, stackAlignOf_aarch64 field (eq_ok_of_toOption halign), Option.bind_some]
        show (Aarch64.fieldsLayout fields (alignTo offset align + size)).map _ = _
        rw [ih hlayout]
        rfl

theorem structFieldOffset_aarch64 {ty : Ty} {index : Option Nat} {field : Option (Nat × Ty)}
    (h : memoryLayout.structFieldOffset ty index = some field) :
    Aarch64.memoryLayout.structFieldOffset ty index = some field := by
  cases index with
  | none => cases ty <;> exact h
  | some i =>
      cases ty
      case struct fields =>
        simp only [MemoryLayout.structFieldOffset] at h ⊢
        obtain ⟨layout, hlayout, hfield⟩ := Option.bind_eq_some_iff.mp h
        exact Option.bind_eq_some_iff.mpr ⟨layout, fieldsLayout_aarch64 fields hlayout, hfield⟩
      all_goals exact h

theorem indexedElement_aarch64 {ty : Ty} {element : Ty × Nat}
    (h : memoryLayout.indexedElement ty = some element) :
    Aarch64.memoryLayout.indexedElement ty = some element := by
  have hsize : ∀ {ty : Ty} {n : Nat}, memoryLayout.stackSizeOf ty = some n →
      Aarch64.stackSizeOf ty = some n := fun h => stackSizeOf_aarch64 _ (eq_ok_of_toOption h)
  cases ty
  case array elem len =>
    simp only [MemoryLayout.indexedElement] at h ⊢
    obtain ⟨size, hs, h⟩ := Option.bind_eq_some_iff.mp h
    refine Option.bind_eq_some_iff.mpr ⟨size, hsize hs, ?_⟩
    split at h
    · rename_i hzero
      rw [if_pos hzero]
      exact h
    · rename_i hzero
      obtain ⟨align, halign, h⟩ := Option.map_eq_some_iff.mp h
      rw [if_neg hzero]
      exact Option.map_eq_some_iff.mpr
        ⟨align, stackAlignOf_aarch64 _ (eq_ok_of_toOption halign), h⟩
  all_goals
    simp only [MemoryLayout.indexedElement] at h ⊢
    obtain ⟨size, hs, h⟩ := Option.map_eq_some_iff.mp h
    exact Option.map_eq_some_iff.mpr ⟨size, hsize hs, h⟩

/-- What this lowering accepts, the AArch64 lowering lowers alike. -/
theorem gepAmounts_aarch64 {reg : Value → BitVec 64} (indices : List GepIndex) {ty : Ty}
    {amounts : List (BitVec 64)} (h : memoryLayout.gepAmounts reg ty indices = some amounts) :
    Aarch64.memoryLayout.gepAmounts reg ty indices = some amounts := by
  induction indices generalizing ty amounts with
  | nil => exact h
  | cons index indices ih =>
      rw [MemoryLayout.gepAmounts] at h
      obtain ⟨field, hfield, h⟩ := Option.bind_eq_some_iff.mp h
      rw [MemoryLayout.gepAmounts, structFieldOffset_aarch64 hfield, Option.bind_some]
      cases field with
      | some found =>
          obtain ⟨rest, hrest, rfl⟩ := Option.map_eq_some_iff.mp h
          exact Option.map_eq_some_iff.mpr ⟨rest, ih hrest, rfl⟩
      | none =>
          obtain ⟨element, helement, h⟩ := Option.bind_eq_some_iff.mp h
          obtain ⟨rest, hrest, rfl⟩ := Option.map_eq_some_iff.mp h
          exact Option.bind_eq_some_iff.mpr
            ⟨element, indexedElement_aarch64 helement,
              Option.map_eq_some_iff.mpr ⟨rest, ih hrest, rfl⟩⟩

end Crabbit.X86
