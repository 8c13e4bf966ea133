/-
  Crabbit.Importer.RustTy

  Rust types as the importer sees them (`importer/layout.rs`, `convert.rs`,
  `helpers.rs`), their layout, and the types of the back end they convert to.

  What the importer asks rustc for is part of the type: the memory order of
  the fields of structs, tuples and closures, and the layout of enums.  Types
  are those left after `runtime_ty` and `normalize_ty`.
-/

import Crabbit.Lib.Align
import Crabbit.Llvm.Types
import Mathlib.Data.List.Basic

namespace Crabbit.Importer

open Crabbit.Llvm (Ty)

/-! ## Types -/

inductive IntTy where
  | i8 | i16 | i32 | i64 | i128 | isize
  deriving DecidableEq

inductive UintTy where
  | u8 | u16 | u32 | u64 | u128 | usize
  deriving DecidableEq

def intWidth : IntTy → Nat
  | .i8 => 8
  | .i16 => 16
  | .i32 => 32
  | .i64 => 64
  | .i128 => 128
  | .isize => 64

def uintWidth : UintTy → Nat
  | .u8 => 8
  | .u16 => 16
  | .u32 => 32
  | .u64 => 64
  | .u128 => 128
  | .usize => 64

/-- The unsized tail of a pointee, which a fat pointer has metadata for. -/
inductive Tail where
  | str | slice | dynamic
  deriving DecidableEq

/-- What rustc lays an enum out to: its alignment is a power of two, of which
    its size is a multiple. -/
structure EnumLayout where
  size : Nat
  logAlign : Nat
  padded : 2 ^ logAlign ∣ size

def EnumLayout.align (layout : EnumLayout) : Nat := 2 ^ layout.logAlign

/-- The representation attributes of a struct or a union. -/
structure Representation where
  /-- `packed(n)`: no field is aligned more strictly. -/
  pack : Option Nat
  /-- `align(n)`: the type is aligned at least so. -/
  align : Option Nat
  deriving DecidableEq

/-- No attribute. -/
def Representation.rust : Representation := ⟨none, none⟩

/-- `order` is `in_memory_order`: the source indices of the fields, as they
    lie in memory. -/
inductive RustTy where
  | bool
  | char
  | int (kind : IntTy)
  | uint (kind : UintTy)
  | f32
  | f64
  | fnPtr
  | fnDef
  | never
  | str
  | dynamic
  | slice (elem : RustTy)
  /-- A reference or a raw pointer, to a pointee with this tail. -/
  | ref (tail : Option Tail)
  | tuple (fields : List RustTy) (order : List Nat)
  | array (elem : RustTy) (len : Nat)
  | struct (fields : List RustTy) (order : List Nat) (repr : Representation)
  | closure (fields : List RustTy) (order : List Nat)
  | union (fields : List RustTy) (repr : Representation)
  | enum (layout : EnumLayout)
  /-- `core::fmt::Arguments`, a struct of two `NonNull` pointers. -/
  | fmtArguments
  /-- `core::fmt::rt::ArgumentType`. -/
  | fmtArgumentType

/-- The elements in memory order. -/
def permute {α : Type} (order : List Nat) (fields : List α) : List α :=
  order.filterMap fun index => fields[index]?

/-! ## Layout -/

/-- `(value + align - 1) & !(align - 1)`. -/
def alignTo (value align : Nat) : Nat :=
  if align ≤ 1 then value else Lib.roundUp value align

/-- `div_ceil(8).clamp(1, 8)`. -/
def intAlign (width : Nat) : Nat := min (max ((width + 7) / 8) 1) 8

/-- The size and the alignment of a field. -/
abbrev FieldLayout := Nat × Nat

/-- `struct_like_field_offsets`, the fields before these ending at `offset`. -/
def structLikeFieldOffsets : List FieldLayout → Nat → List Nat
  | [], _ => []
  | (size, align) :: fields, offset =>
      if size = 0 then offset :: structLikeFieldOffsets fields offset
      else alignTo offset align :: structLikeFieldOffsets fields (alignTo offset align + size)

/-- `struct_like_align`; zero-sized fields do not count. -/
def structLikeAlign (fields : List FieldLayout) : Nat :=
  fields.foldl (fun align field => if field.1 = 0 then align else max align field.2) 1

/-- `struct_like_size`. -/
def structLikeSize (fields : List FieldLayout) : Nat :=
  alignTo
    ((fields.zip (structLikeFieldOffsets fields 0)).foldl (fun unpadded field =>
      if field.1.1 = 0 then unpadded else max unpadded (field.2 + field.1.1)) 0)
    (structLikeAlign fields)

/-- `enum_stack_align`: the alignment of rustc's layout, capped at 8. -/
def enumStackAlign (layout : EnumLayout) : Nat := min (max layout.align 1) 8

mutual

/-- `layout_align_of_ty`. -/
def layoutAlignOfTy : RustTy → Nat
  | .bool => 1
  | .char => 4
  | .str | .dynamic => 1
  | .int kind => intAlign (intWidth kind)
  | .uint kind => intAlign (uintWidth kind)
  | .f32 => 4
  | .f64 => 8
  | .fnPtr | .ref _ => 8
  | .fnDef | .never => 1
  | .tuple fields _ | .struct fields _ _ | .closure fields _ =>
      structLikeAlign (fieldLayouts fields)
  | .array elem _ | .slice elem => layoutAlignOfTy elem
  | .fmtArguments | .fmtArgumentType => 8
  -- Unions convert to a byte array.
  | .union _ _ => 1
  | .enum layout => enumStackAlign layout

/-- `layout_size_of_ty`. -/
def layoutSizeOfTy : RustTy → Nat
  | .bool => 1
  | .char => 4
  | .str | .dynamic => 0
  | .int kind => (intWidth kind + 7) / 8
  | .uint kind => (uintWidth kind + 7) / 8
  | .f32 => 4
  | .f64 => 8
  | .fnPtr => 8
  | .fnDef | .never => 0
  -- Fat references convert to a two-word struct.
  | .ref tail => if tail.isSome then 16 else 8
  | .tuple fields order | .struct fields order _ | .closure fields order =>
      structLikeSize (permute order (fieldLayouts fields))
  | .array elem len => alignTo (layoutSizeOfTy elem) (layoutAlignOfTy elem) * len
  | .slice elem => layoutSizeOfTy elem
  | .fmtArguments | .fmtArgumentType => 16
  | .union fields _ => ((fieldLayouts fields).map Prod.fst).foldl max 0
  | .enum layout => layout.size

/-- The layouts of fields, in the order given. -/
def fieldLayouts : List RustTy → List FieldLayout
  | [] => []
  | field :: fields => (layoutSizeOfTy field, layoutAlignOfTy field) :: fieldLayouts fields

end

/-- `field_memory_position`. -/
def fieldMemoryPosition (order : List Nat) (index : Nat) : Nat :=
  if index ∈ order then order.idxOf index else index

/-- The fields and the memory order of a struct-like type. -/
def structLike : RustTy → Option (List RustTy × List Nat)
  | .tuple fields order | .struct fields order _ | .closure fields order => some (fields, order)
  | _ => none

/-- `field_offset_of`, for all but enums, the offsets of which are rustc's. -/
def fieldOffsetOf (ty : RustTy) (index : Nat) : Option Nat :=
  match ty with
  | .union fields _ => if index ≥ fields.length then none else some 0
  -- Two pointers, as they are declared.
  | .fmtArguments => (structLikeFieldOffsets [(8, 8), (8, 8)] 0)[index]?
  | ty => (structLike ty).bind fun (fields, order) =>
      if index ≥ fields.length then none
      else (structLikeFieldOffsets (permute order (fieldLayouts fields)) 0)[
        fieldMemoryPosition order index]?

/-! ## Conversion -/

/-- The converted type of `u8`. -/
def byteTy : Ty := .int 8 .unsigned

/-- `enum_blob_ty`: an array of words as wide as the enum is aligned. -/
def enumBlobTy (layout : EnumLayout) : Ty :=
  if layout.size = 0 then .unit
  else .struct [.array (.int (enumStackAlign layout * 8) .unsigned)
    (layout.size / enumStackAlign layout)]

mutual

/-- `convert_ty`. -/
def convertTy : RustTy → Ty
  | .bool => .int 8 .signless
  | .str | .dynamic => .array byteTy 0
  | .int kind => .int (intWidth kind) .signed
  | .uint kind => .int (uintWidth kind) .unsigned
  | .char => .int 32 .unsigned
  | .f32 => .fp32
  | .f64 => .fp64
  | .fnPtr => .pointer
  | .fnDef | .never => .unit
  | .tuple [] _ => .unit
  | .tuple (field :: fields) order => .struct (permute order (convertTys (field :: fields)))
  | .array elem len => .array (convertTy elem) len
  | .slice elem => .array (convertTy elem) 0
  | .ref none => .pointer
  | .ref (some .dynamic) => .struct [.pointer, .pointer]
  | .ref (some _) => .struct [.pointer, .int 64 .unsigned]
  | .fmtArguments | .fmtArgumentType => .struct [.pointer, .pointer]
  | .struct fields order _ | .closure fields order => .struct (permute order (convertTys fields))
  | .union fields _ =>
      .struct [if ((fieldLayouts fields).map Prod.fst).foldl max 0 = 0 then .unit
        else .array byteTy (((fieldLayouts fields).map Prod.fst).foldl max 0)]
  | .enum layout => enumBlobTy layout

def convertTys : List RustTy → List Ty
  | [] => []
  | field :: fields => convertTy field :: convertTys fields

end

/-! ## Parts -/

section

attribute [local simp] layoutSizeOfTy layoutAlignOfTy fieldLayouts convertTy convertTys

theorem fieldLayouts_eq (fields : List RustTy) :
    fieldLayouts fields = fields.map fun f => (layoutSizeOfTy f, layoutAlignOfTy f) := by
  induction fields with
  | nil => simp
  | cons field fields ih => simp [ih]

theorem convertTys_eq (fields : List RustTy) : convertTys fields = fields.map convertTy := by
  induction fields with
  | nil => simp
  | cons field fields ih => simp [ih]

end

namespace RustTy

/-- The types a type is immediately made of. -/
def parts : RustTy → List RustTy
  | .slice elem | .array elem _ => [elem]
  | .tuple fields _ | .struct fields _ _ | .closure fields _ | .union fields _ => fields
  | _ => []

mutual

/-- What holds of a type when it holds of its parts, holds of all types. -/
theorem parts_induction {P : RustTy → Prop} (h : ∀ ty, (∀ part ∈ ty.parts, P part) → P ty) :
    ∀ ty, P ty
  | .bool => h _ fun _ hp => absurd hp List.not_mem_nil
  | .char => h _ fun _ hp => absurd hp List.not_mem_nil
  | .int _ => h _ fun _ hp => absurd hp List.not_mem_nil
  | .uint _ => h _ fun _ hp => absurd hp List.not_mem_nil
  | .f32 => h _ fun _ hp => absurd hp List.not_mem_nil
  | .f64 => h _ fun _ hp => absurd hp List.not_mem_nil
  | .fnPtr => h _ fun _ hp => absurd hp List.not_mem_nil
  | .fnDef => h _ fun _ hp => absurd hp List.not_mem_nil
  | .never => h _ fun _ hp => absurd hp List.not_mem_nil
  | .str => h _ fun _ hp => absurd hp List.not_mem_nil
  | .dynamic => h _ fun _ hp => absurd hp List.not_mem_nil
  | .ref _ => h _ fun _ hp => absurd hp List.not_mem_nil
  | .enum _ => h _ fun _ hp => absurd hp List.not_mem_nil
  | .fmtArguments => h _ fun _ hp => absurd hp List.not_mem_nil
  | .fmtArgumentType => h _ fun _ hp => absurd hp List.not_mem_nil
  | .slice elem => h _ fun _ hp => List.mem_singleton.mp hp ▸ parts_induction h elem
  | .array elem _ => h _ fun _ hp => List.mem_singleton.mp hp ▸ parts_induction h elem
  | .tuple fields _ => h _ (parts_induction_list h fields)
  | .struct fields _ _ => h _ (parts_induction_list h fields)
  | .closure fields _ => h _ (parts_induction_list h fields)
  | .union fields _ => h _ (parts_induction_list h fields)

theorem parts_induction_list {P : RustTy → Prop}
    (h : ∀ ty, (∀ part ∈ ty.parts, P part) → P ty) :
    ∀ fields : List RustTy, ∀ field ∈ fields, P field
  | [], _, hp => absurd hp List.not_mem_nil
  | field :: fields, f, hp => by
    rcases List.mem_cons.mp hp with hf | hf
    · rw [hf]
      exact parts_induction h field
    · exact parts_induction_list h fields f hf

end

/-- `part` is the type, or is in it. -/
inductive Component : RustTy → RustTy → Prop where
  | refl (ty : RustTy) : Component ty ty
  | part {c part ty : RustTy} (h : Component c part) (hpart : part ∈ ty.parts) : Component c ty

/-- What holds of all components of a type holds of those of its parts. -/
theorem forall_components_iff {P : RustTy → Prop} {ty : RustTy} :
    (∀ c, Component c ty → P c) ↔
      P ty ∧ ∀ part ∈ ty.parts, ∀ c, Component c part → P c := by
  constructor
  · exact fun h => ⟨h ty (.refl ty), fun part hpart c hc => h c (.part hc hpart)⟩
  · rintro ⟨hty, hparts⟩ c hc
    cases hc with
    | refl => exact hty
    | part h hpart => exact hparts _ hpart c h

end RustTy

end Crabbit.Importer
