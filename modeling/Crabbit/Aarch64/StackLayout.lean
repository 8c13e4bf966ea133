/-
  Crabbit.Aarch64.StackLayout

  The layout of stack values in the AArch64 lowering
  (`passes/aarch64/isel_memory_abi.rs`): sizes, alignments, and the offsets of
  the fields of aggregates.  A type the lowering does not support has none.
-/

import Crabbit.Aarch64.Abi

namespace Crabbit.Aarch64

open Crabbit.Llvm (Ty)

/-! ## Scalars -/

/-- `scalar_size_of`. -/
def scalarSizeOf : Ty → Option Nat
  | .int width _ => some (max ((width + 7) / 8) 1)
  | .pointer => some 8
  | .fp32 => some 4
  | .fp64 => some 8
  | _ => none

/-- `clamp(1, 8)`. -/
def clampAlign (size : Nat) : Nat := min (max size 1) 8

/-! ## Types -/

mutual

/-- `stack_align_of`; the members of a struct all count, the zero-sized ones
    included. -/
def stackAlignOf : Ty → Option Nat
  | .unit | .void => some 1
  | .int width sign => (scalarSizeOf (.int width sign)).map clampAlign
  | .pointer => (scalarSizeOf .pointer).map clampAlign
  | .fp32 => (scalarSizeOf .fp32).map clampAlign
  | .fp64 => (scalarSizeOf .fp64).map clampAlign
  | .array elem _ => stackAlignOf elem
  | .struct fields => fieldsAlign fields 1
  | .opaqueStruct | .vector _ _ => none

/-- The running alignment of a struct's fields. -/
def fieldsAlign : List Ty → Nat → Option Nat
  | [], align => some align
  | field :: fields, align => (stackAlignOf field).bind fun a => fieldsAlign fields (max align a)

end

mutual

/-- `stack_size_of`; a struct goes up to the end of its last field. -/
def stackSizeOf : Ty → Option Nat
  | .unit | .void => some 0
  | .int width sign => scalarSizeOf (.int width sign)
  | .pointer => scalarSizeOf .pointer
  | .fp32 => scalarSizeOf .fp32
  | .fp64 => scalarSizeOf .fp64
  | .array elem len => (stackSizeOf elem).bind fun size =>
      if size = 0 then some 0
      else (stackAlignOf elem).map fun align => alignTo size align * len
  | .struct [] => some 0
  | .struct (field :: fields) => (fieldsEnd (field :: fields) 0).bind fun unpadded =>
      (fieldsAlign (field :: fields) 1).map fun align => alignTo unpadded align
  | .opaqueStruct | .vector _ _ => none

/-- The running offset of `aggregate_field_layout`, up to the end of the last
    field; a zero-sized field leaves the offset unaligned. -/
def fieldsEnd : List Ty → Nat → Option Nat
  | [], offset => some offset
  | field :: fields, offset => (stackSizeOf field).bind fun size =>
      if size = 0 then fieldsEnd fields offset
      else (stackAlignOf field).bind fun align => fieldsEnd fields (alignTo offset align + size)

end

/-- The fields of a struct with their offsets, those before them ending at
    `offset`. -/
def fieldsLayout : List Ty → Nat → Option (List (Nat × Ty))
  | [], _ => some []
  | field :: fields, offset => (stackSizeOf field).bind fun size =>
      if size = 0 then (fieldsLayout fields offset).map fun layout => (offset, field) :: layout
      else (stackAlignOf field).bind fun align =>
        (fieldsLayout fields (alignTo offset align + size)).map fun layout =>
          (alignTo offset align, field) :: layout

/-- `aggregate_field_layout`. -/
def aggregateFieldLayout : Ty → Option (List (Nat × Ty))
  | .unit | .void => some []
  | .array elem len => (stackSizeOf elem).bind fun size =>
      if size = 0 then some []
      else (stackAlignOf elem).map fun align =>
        (List.range len).map fun index => (index * alignTo size align, elem)
  | .struct fields => fieldsLayout fields 0
  | _ => none

end Crabbit.Aarch64
