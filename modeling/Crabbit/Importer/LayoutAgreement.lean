/-
  Crabbit.Importer.LayoutAgreement

  The importer computes sizes, alignments and field offsets of Rust types by
  itself, and the AArch64 lowering those of the types they convert to.  The
  two agree but for the alignment of members without a size, which counts in
  the lowering only.
-/

import Crabbit.Aarch64.StackLayout
import Crabbit.Importer.RustTy
import Mathlib.Data.List.Forall2
import Mathlib.Data.List.Perm.Basic
import Mathlib.Tactic.ByContra

namespace Crabbit.Importer

open Crabbit.Llvm (Ty)
open Crabbit.Aarch64 (scalarSizeOf clampAlign stackSizeOf stackAlignOf fieldsAlign fieldsEnd
  fieldsLayout aggregateFieldLayout)

/-! ## Rounding -/

theorem alignTo_eq (value align : Nat) : Aarch64.alignTo value align = alignTo value align := rfl

theorem le_alignTo (value align : Nat) : value ≤ alignTo value align := by
  rw [alignTo]
  split
  · exact Nat.le_refl _
  · have h := Nat.and_le_right (n := value + align - 1) (m := align - 1)
    rw [Lib.roundUp]
    omega

theorem alignTo_zero (align : Nat) : alignTo 0 align = 0 := by
  rw [alignTo]
  split
  · rfl
  · rw [Lib.roundUp, Nat.zero_add, Nat.and_self, Nat.sub_self]

theorem alignTo_one (value : Nat) : alignTo value 1 = value := rfl

theorem alignTo_eq_zero {value align : Nat} : alignTo value align = 0 ↔ value = 0 := by
  constructor
  · intro h
    have hle := le_alignTo value align
    omega
  · rintro rfl
    exact alignTo_zero align

/-- A multiple of a power of two stays. -/
theorem alignTo_two_pow {value k : Nat} (h : 2 ^ k ∣ value) : alignTo value (2 ^ k) = value := by
  rw [alignTo]
  split
  · rfl
  · exact (Lib.roundUp_eq_self_iff value k).mpr h

/-! ## Fields one after the other -/

/-- Where the last of the fields ends, those before them ending at `offset`. -/
def structLikeEnd : List FieldLayout → Nat → Nat
  | [], offset => offset
  | (size, align) :: fields, offset =>
      if size = 0 then structLikeEnd fields offset
      else structLikeEnd fields (alignTo offset align + size)

/-- The alignment of a struct all fields of which count. -/
def maxAlign (fields : List FieldLayout) : Nat :=
  fields.foldl (fun align field => max align field.2) 1

theorem le_structLikeEnd (fields : List FieldLayout) (offset : Nat) :
    offset ≤ structLikeEnd fields offset := by
  induction fields generalizing offset with
  | nil => exact Nat.le_refl _
  | cons field fields ih =>
    obtain ⟨size, align⟩ := field
    rw [structLikeEnd]
    split
    · exact ih offset
    · have hle := le_alignTo offset align
      have h := ih (alignTo offset align + size)
      omega

/-- Nothing but fields without a size ends where it starts. -/
theorem structLikeEnd_eq_self (fields : List FieldLayout) (offset : Nat) :
    structLikeEnd fields offset = offset ↔ ∀ field ∈ fields, field.1 = 0 := by
  induction fields with
  | nil => simp [structLikeEnd]
  | cons field fields ih =>
    obtain ⟨size, align⟩ := field
    rw [structLikeEnd, List.forall_mem_cons]
    split
    case isTrue h => rw [ih]; exact ⟨fun hall => ⟨h, hall⟩, fun hall => hall.2⟩
    case isFalse h =>
      constructor
      · intro heq
        have hle := le_alignTo offset align
        have hend := le_structLikeEnd fields (alignTo offset align + size)
        omega
      · exact fun hall => absurd hall.1 h

/-- The importer's running maximum of the ends of the fields is the last one. -/
theorem foldl_unpadded (fields : List FieldLayout) (offset : Nat) :
    (fields.zip (structLikeFieldOffsets fields offset)).foldl (fun unpadded field =>
      if field.1.1 = 0 then unpadded else max unpadded (field.2 + field.1.1)) offset =
      structLikeEnd fields offset := by
  induction fields generalizing offset with
  | nil => rfl
  | cons field fields ih =>
    obtain ⟨size, align⟩ := field
    rw [structLikeFieldOffsets, structLikeEnd]
    by_cases h : size = 0
    · rw [if_pos h, if_pos h, List.zip_cons_cons, List.foldl_cons, if_pos h]
      exact ih offset
    · have hle := le_alignTo offset align
      have hmax : max offset (alignTo offset align + size) = alignTo offset align + size := by
        omega
      rw [if_neg h, if_neg h, List.zip_cons_cons, List.foldl_cons, if_neg h]
      simp only [hmax]
      exact ih _

theorem structLikeSize_eq (fields : List FieldLayout) :
    structLikeSize fields = alignTo (structLikeEnd fields 0) (structLikeAlign fields) := by
  rw [structLikeSize, foldl_unpadded]

theorem structLikeSize_eq_zero (fields : List FieldLayout) :
    structLikeSize fields = 0 ↔ ∀ field ∈ fields, field.1 = 0 := by
  rw [structLikeSize_eq, alignTo_eq_zero, structLikeEnd_eq_self]

theorem length_structLikeFieldOffsets (fields : List FieldLayout) (offset : Nat) :
    (structLikeFieldOffsets fields offset).length = fields.length := by
  induction fields generalizing offset with
  | nil => rfl
  | cons field fields ih =>
    obtain ⟨size, align⟩ := field
    rw [structLikeFieldOffsets]
    split <;> rw [List.length_cons, ih, List.length_cons]

/-! ## Alignment of structs -/

theorem foldl_max_le (fields : List FieldLayout) (start bound : Nat) :
    fields.foldl (fun align field => max align field.2) start ≤ bound ↔
      start ≤ bound ∧ ∀ field ∈ fields, field.2 ≤ bound := by
  induction fields generalizing start with
  | nil => simp
  | cons field fields ih =>
    rw [List.foldl_cons, ih, List.forall_mem_cons]
    constructor
    · rintro ⟨h, hall⟩
      exact ⟨by omega, by omega, hall⟩
    · rintro ⟨h, hfield, hall⟩
      exact ⟨by omega, hall⟩

theorem maxAlign_le (fields : List FieldLayout) (bound : Nat) :
    maxAlign fields ≤ bound ↔ 1 ≤ bound ∧ ∀ field ∈ fields, field.2 ≤ bound :=
  foldl_max_le fields 1 bound

theorem foldl_sized_le (fields : List FieldLayout) (start bound : Nat) :
    fields.foldl (fun align field => if field.1 = 0 then align else max align field.2) start ≤ bound
      ↔ start ≤ bound ∧ ∀ field ∈ fields, field.1 ≠ 0 → field.2 ≤ bound := by
  induction fields generalizing start with
  | nil => simp
  | cons field fields ih =>
    rw [List.foldl_cons, ih, List.forall_mem_cons]
    by_cases h : field.1 = 0
    · rw [if_pos h]
      exact ⟨fun hall => ⟨hall.1, fun hne => absurd h hne, hall.2⟩,
        fun hall => ⟨hall.1, hall.2.2⟩⟩
    · rw [if_neg h]
      constructor
      · rintro ⟨hle, hall⟩
        exact ⟨by omega, fun _ => by omega, hall⟩
      · rintro ⟨hle, hfield, hall⟩
        have := hfield h
        exact ⟨by omega, hall⟩

theorem structLikeAlign_le (fields : List FieldLayout) (bound : Nat) :
    structLikeAlign fields ≤ bound ↔ 1 ≤ bound ∧ ∀ field ∈ fields, field.1 ≠ 0 → field.2 ≤ bound :=
  foldl_sized_le fields 1 bound

/-- The alignment is that of one of the fields with a size, unless it is 1. -/
theorem le_structLikeAlign (fields : List FieldLayout) (align : Nat) :
    align ≤ structLikeAlign fields ↔
      align ≤ 1 ∨ ∃ field ∈ fields, field.1 ≠ 0 ∧ align ≤ field.2 := by
  cases align with
  | zero => exact ⟨fun _ => Or.inl (Nat.zero_le 1), fun _ => Nat.zero_le _⟩
  | succ align =>
    rw [← not_iff_not, Nat.not_le, Nat.lt_succ_iff, structLikeAlign_le]
    constructor
    · rintro ⟨hone, hall⟩ (hle | ⟨field, hmem, hne, hle⟩)
      · omega
      · have := hall field hmem hne
        omega
    · intro hno
      refine ⟨?_, fun field hmem hne => ?_⟩
      · by_contra h
        exact hno (Or.inl (by omega))
      · by_contra h
        exact hno (Or.inr ⟨field, hmem, hne, by omega⟩)

/-- The alignments with and without the fields that have no size are the same
    when none of these is aligned more strictly than the others. -/
theorem maxAlign_eq_iff (fields : List FieldLayout) :
    maxAlign fields = structLikeAlign fields ↔ ∀ field ∈ fields, field.1 = 0 →
      field.2 ≤ 1 ∨ ∃ sized ∈ fields, sized.1 ≠ 0 ∧ field.2 ≤ sized.2 := by
  have hle : structLikeAlign fields ≤ maxAlign fields := by
    have h := (maxAlign_le fields (maxAlign fields)).mp (Nat.le_refl _)
    exact (structLikeAlign_le fields _).mpr ⟨h.1, fun field hmem _ => h.2 field hmem⟩
  have hself := (structLikeAlign_le fields (structLikeAlign fields)).mp (Nat.le_refl _)
  rw [show maxAlign fields = structLikeAlign fields ↔ maxAlign fields ≤ structLikeAlign fields from
    ⟨fun h => Nat.le_of_eq h, fun h => Nat.le_antisymm h hle⟩, maxAlign_le]
  constructor
  · rintro ⟨_, hall⟩ field hmem _
    exact (le_structLikeAlign fields field.2).mp (hall field hmem)
  · intro hall
    refine ⟨hself.1, fun field hmem => ?_⟩
    by_cases hzero : field.1 = 0
    · exact (le_structLikeAlign fields field.2).mpr (hall field hmem hzero)
    · exact hself.2 field hmem hzero

theorem structLikeAlign_perm {fields fields' : List FieldLayout} (h : fields.Perm fields') :
    structLikeAlign fields = structLikeAlign fields' := by
  apply Nat.le_antisymm
  · have h' := (structLikeAlign_le fields' _).mp (Nat.le_refl _)
    exact (structLikeAlign_le fields _).mpr ⟨h'.1, fun f hf => h'.2 f (h.mem_iff.mp hf)⟩
  · have h' := (structLikeAlign_le fields _).mp (Nat.le_refl _)
    exact (structLikeAlign_le fields' _).mpr ⟨h'.1, fun f hf => h'.2 f (h.mem_iff.mpr hf)⟩

/-! ## The back end's layout of the same fields -/

/-- The back end lays the type out so. -/
def HasLayout (ty : Ty) (layout : FieldLayout) : Prop :=
  stackSizeOf ty = some layout.1 ∧ stackAlignOf ty = some layout.2

theorem fieldsAlign_eq {tys : List Ty} {layouts : List FieldLayout}
    (h : List.Forall₂ HasLayout tys layouts) (start : Nat) :
    fieldsAlign tys start = some (layouts.foldl (fun align field => max align field.2) start) := by
  induction h generalizing start with
  | nil => rfl
  | cons hfield _ ih => rw [fieldsAlign, hfield.2, Option.bind_some, ih, List.foldl_cons]

theorem fieldsEnd_eq {tys : List Ty} {layouts : List FieldLayout}
    (h : List.Forall₂ HasLayout tys layouts) (offset : Nat) :
    fieldsEnd tys offset = some (structLikeEnd layouts offset) := by
  induction h generalizing offset with
  | nil => rfl
  | @cons ty layout tys layouts hfield _ ih =>
    obtain ⟨size, align⟩ := layout
    rw [fieldsEnd, hfield.1, Option.bind_some, structLikeEnd]
    by_cases hzero : size = 0
    · rw [if_pos hzero, if_pos hzero, ih]
    · rw [if_neg hzero, if_neg hzero, hfield.2, Option.bind_some, ih, alignTo_eq]

theorem fieldsLayout_eq {tys : List Ty} {layouts : List FieldLayout}
    (h : List.Forall₂ HasLayout tys layouts) (offset : Nat) :
    fieldsLayout tys offset = some ((structLikeFieldOffsets layouts offset).zip tys) := by
  induction h generalizing offset with
  | nil => rfl
  | @cons ty layout tys layouts hfield _ ih =>
    obtain ⟨size, align⟩ := layout
    rw [fieldsLayout, hfield.1, Option.bind_some, structLikeFieldOffsets]
    by_cases hzero : size = 0
    · rw [if_pos hzero, if_pos hzero, ih, Option.map_some, List.zip_cons_cons]
    · rw [if_neg hzero, if_neg hzero, hfield.2, Option.bind_some, ih, Option.map_some, alignTo_eq,
        List.zip_cons_cons]

theorem stackAlignOf_struct {tys : List Ty} {layouts : List FieldLayout}
    (h : List.Forall₂ HasLayout tys layouts) :
    stackAlignOf (.struct tys) = some (maxAlign layouts) := by
  rw [stackAlignOf, fieldsAlign_eq h, maxAlign]

theorem stackSizeOf_struct {tys : List Ty} {layouts : List FieldLayout}
    (h : List.Forall₂ HasLayout tys layouts) :
    stackSizeOf (.struct tys) = some (alignTo (structLikeEnd layouts 0) (maxAlign layouts)) := by
  cases h with
  | nil => rfl
  | cons hfield hfields =>
    rw [stackSizeOf, fieldsEnd_eq (.cons hfield hfields), Option.bind_some,
      fieldsAlign_eq (.cons hfield hfields), Option.map_some, maxAlign, alignTo_eq]

theorem HasLayout.array {elem : Ty} {size align : Nat} (h : HasLayout elem (size, align))
    (len : Nat) : HasLayout (.array elem len) (alignTo size align * len, align) := by
  refine ⟨?_, by rw [stackAlignOf]; exact h.2⟩
  rw [stackSizeOf, h.1, Option.bind_some]
  split
  case isTrue hzero => rw [show size = 0 from hzero, alignTo_zero, Nat.zero_mul]
  case isFalse => rw [h.2, Option.map_some, alignTo_eq]

/-- A struct of one field, the size of which is a multiple of its alignment,
    is laid out as the field is. -/
theorem HasLayout.wrap {ty : Ty} {size align : Nat} (h : HasLayout ty (size, align))
    (hpos : 1 ≤ align) (hpadded : alignTo size align = size) :
    HasLayout (.struct [ty]) (size, align) := by
  have hfields : List.Forall₂ HasLayout [ty] [(size, align)] := .cons h .nil
  have halign : maxAlign [(size, align)] = align := by
    show max 1 align = align
    omega
  have hend : structLikeEnd [(size, align)] 0 = size := by
    rw [structLikeEnd, structLikeEnd, structLikeEnd, alignTo_zero, Nat.zero_add]
    split
    case isTrue hzero => exact hzero.symm
    case isFalse => rfl
  constructor
  · rw [stackSizeOf_struct hfields, halign, hend, hpadded]
  · rw [stackAlignOf_struct hfields, halign]

/-! ## Memory order -/

theorem permute_map {α β : Type} (f : α → β) (order : List Nat) (fields : List α) :
    permute order (fields.map f) = (permute order fields).map f := by
  induction order with
  | nil => rfl
  | cons index order ih =>
    rw [permute, permute, List.filterMap_cons, List.filterMap_cons, List.getElem?_map]
    cases fields[index]? with
    | none => exact ih
    | some field => exact congrArg (f field :: ·) ih

theorem permute_range {α : Type} (fields : List α) :
    permute (List.range fields.length) fields = fields := by
  induction fields with
  | nil => rfl
  | cons field fields ih =>
    rw [List.length_cons, List.range_succ_eq_map, permute, List.filterMap_cons]
    simp only [List.getElem?_cons_zero, List.filterMap_map]
    exact congrArg (field :: ·) ih

/-- Memory order keeps all fields. -/
theorem permute_perm {α : Type} {order : List Nat} {fields : List α}
    (h : order.Perm (List.range fields.length)) : (permute order fields).Perm fields := by
  have hp := h.filterMap fun index => fields[index]?
  have hr := permute_range fields
  rw [permute] at hr
  rw [hr] at hp
  exact hp

/-! ## Agreement -/

/-- `NonNull`, a struct of a raw pointer. -/
def nonNull : RustTy := .struct [.ref none] [0] .rust

/-- The fields `field_offset_of` takes an index of. -/
def projectedFields : RustTy → List RustTy
  | .tuple fields _ | .struct fields _ _ | .closure fields _ | .union fields _ => fields
  | .fmtArguments => [nonNull, nonNull]
  | _ => []

/-- The field of the converted type a field is in; all of a union's are in the
    one. -/
def convertedField (ty : RustTy) (index : Nat) : Nat :=
  match ty with
  | .union _ _ => 0
  | ty => match structLike ty with
    | some (_, order) => fieldMemoryPosition order index
    | none => index

/-- The importer's layout of a type is the back end's of what it converts to. -/
structure Agrees (ty : RustTy) : Prop where
  layout : HasLayout (convertTy ty) (layoutSizeOfTy ty, layoutAlignOfTy ty)
  offsets : ∀ index < (projectedFields ty).length, ∃ layout offset,
    fieldOffsetOf ty index = some offset ∧ aggregateFieldLayout (convertTy ty) = some layout ∧
      (layout[convertedField ty index]?).map Prod.fst = some offset

/-- `in_memory_order` is a permutation of the fields. -/
def Ordered (ty : RustTy) : Prop :=
  ∀ fields order, structLike ty = some (fields, order) → order.Perm (List.range fields.length)

/-- All that is in the type is. -/
def WellOrdered (ty : RustTy) : Prop := ∀ part, RustTy.Component part ty → Ordered part

mutual

/-- Whether values of the type have no bytes. -/
def zeroSized : RustTy → Bool
  | .str | .dynamic | .slice _ | .fnDef | .never => true
  | .array elem len => zeroSized elem || len == 0
  | .tuple fields _ | .struct fields _ _ | .closure fields _ | .union fields _ => allZeroSized fields
  | .enum layout => layout.size == 0
  | _ => false

def allZeroSized : List RustTy → Bool
  | [] => true
  | field :: fields => zeroSized field && allZeroSized fields

end

mutual

/-- The alignment, at most 8, when members without a size count as well. -/
def fullAlign : RustTy → Nat
  | .bool | .str | .dynamic | .fnDef | .never | .union _ _ => 1
  | .char | .f32 => 4
  | .f64 | .fnPtr | .ref _ | .fmtArguments | .fmtArgumentType => 8
  | .int kind => intAlign (intWidth kind)
  | .uint kind => intAlign (uintWidth kind)
  | .slice elem | .array elem _ => fullAlign elem
  | .tuple fields _ | .struct fields _ _ | .closure fields _ => fullAligns fields 1
  | .enum layout => min layout.align 8

def fullAligns : List RustTy → Nat → Nat
  | [], align => align
  | field :: fields, align => fullAligns fields (max align (fullAlign field))

end

/-- No member without a size is aligned more strictly than all those with one;
    a slice is of elements without a size. -/
def ZeroSizedUnaligned (ty : RustTy) : Prop :=
  match ty with
  | .slice elem => zeroSized elem = true
  | .enum layout => layout.size = 0 → layout.align = 1
  | ty => ∀ fields order, structLike ty = some (fields, order) →
      ∀ field ∈ fields, zeroSized field = true →
        fullAlign field ≤ 1 ∨
          ∃ sized ∈ fields, zeroSized sized = false ∧ fullAlign field ≤ fullAlign sized

section

attribute [local simp] zeroSized allZeroSized fullAlign fullAligns

theorem allZeroSized_iff (fields : List RustTy) :
    allZeroSized fields = true ↔ ∀ field ∈ fields, zeroSized field = true := by
  induction fields with
  | nil => simp
  | cons field fields ih => simp [ih]

theorem fullAligns_eq (fields : List RustTy) (start : Nat) :
    fullAligns fields start =
      fields.foldl (fun align field => max align (fullAlign field)) start := by
  induction fields generalizing start with
  | nil => simp
  | cons field fields ih => simp [ih]

end

/-! ## Structs, tuples and closures -/

/-- What `convert_ty` and the layout functions do with a struct-like type. -/
theorem structLike_cases {ty : RustTy} {fields : List RustTy} {order : List Nat}
    (h : structLike ty = some (fields, order)) :
    (convertTy ty = .struct (permute order (fields.map convertTy)) ∨
      fields = [] ∧ convertTy ty = .unit) ∧
    layoutSizeOfTy ty = structLikeSize (permute order (fieldLayouts fields)) ∧
    layoutAlignOfTy ty = structLikeAlign (fieldLayouts fields) ∧
    ty.parts = fields ∧ projectedFields ty = fields ∧ zeroSized ty = allZeroSized fields ∧
    fullAlign ty = fullAligns fields 1 ∧
    (∀ index < fields.length, fieldOffsetOf ty index =
      (structLikeFieldOffsets (permute order (fieldLayouts fields)) 0)[
        fieldMemoryPosition order index]?) := by
  cases ty with
  | tuple fs o =>
    cases h
    refine ⟨?_, by rw [layoutSizeOfTy], by rw [layoutAlignOfTy], rfl, rfl, by rw [zeroSized],
      by rw [fullAlign], fun index hindex => ?_⟩
    · cases fields with
      | nil => exact Or.inr ⟨rfl, by rw [convertTy]⟩
      | cons field fields => exact Or.inl (by rw [convertTy, convertTys_eq])
    · simp only [fieldOffsetOf, structLike, Option.bind_some]
      rw [if_neg (Nat.not_le.mpr hindex)]
  | struct fs o repr =>
    cases h
    refine ⟨Or.inl (by rw [convertTy, convertTys_eq]), by rw [layoutSizeOfTy],
      by rw [layoutAlignOfTy], rfl, rfl, by rw [zeroSized], by rw [fullAlign], fun index hindex => ?_⟩
    simp only [fieldOffsetOf, structLike, Option.bind_some]
    rw [if_neg (Nat.not_le.mpr hindex)]
  | closure fs o =>
    cases h
    refine ⟨Or.inl (by rw [convertTy, convertTys_eq]), by rw [layoutSizeOfTy],
      by rw [layoutAlignOfTy], rfl, rfl, by rw [zeroSized], by rw [fullAlign], fun index hindex => ?_⟩
    simp only [fieldOffsetOf, structLike, Option.bind_some]
    rw [if_neg (Nat.not_le.mpr hindex)]
  | _ => cases h

theorem convertedField_structLike {ty : RustTy} {fields : List RustTy} {order : List Nat}
    (h : structLike ty = some (fields, order)) (index : Nat) :
    convertedField ty index = fieldMemoryPosition order index := by
  cases ty <;> cases h <;> rfl

theorem maxAlign_perm {fields fields' : List FieldLayout} (h : fields.Perm fields') :
    maxAlign fields = maxAlign fields' := by
  apply Nat.le_antisymm
  · have h' := (maxAlign_le fields' _).mp (Nat.le_refl _)
    exact (maxAlign_le fields _).mpr ⟨h'.1, fun f hf => h'.2 f (h.mem_iff.mp hf)⟩
  · have h' := (maxAlign_le fields _).mp (Nat.le_refl _)
    exact (maxAlign_le fields' _).mpr ⟨h'.1, fun f hf => h'.2 f (h.mem_iff.mpr hf)⟩

/-- The fields in memory order, when the back end lays each out as the
    importer does. -/
theorem permute_hasLayout {fields : List RustTy} {order : List Nat}
    (horder : order.Perm (List.range fields.length))
    (hparts : ∀ field ∈ fields, HasLayout (convertTy field)
      (layoutSizeOfTy field, layoutAlignOfTy field)) :
    List.Forall₂ HasLayout (permute order (fields.map convertTy))
      (permute order (fieldLayouts fields)) := by
  rw [fieldLayouts_eq, permute_map, permute_map, List.forall₂_map_left_iff,
    List.forall₂_map_right_iff, List.forall₂_same]
  exact fun field hmem => hparts field ((permute_perm horder).mem_iff.mp hmem)

theorem fieldMemoryPosition_lt {order : List Nat} {count index : Nat}
    (horder : order.Perm (List.range count)) (h : index < count) :
    fieldMemoryPosition order index < count := by
  have hmem : index ∈ order := horder.mem_iff.mpr (List.mem_range.mpr h)
  have hlt := List.idxOf_lt_length_of_mem hmem
  rw [horder.length_eq, List.length_range] at hlt
  rw [fieldMemoryPosition, if_pos hmem]
  exact hlt

/-- The offsets of the back end are those the importer computes. -/
theorem structLike_offsets {ty : RustTy} {fields : List RustTy} {order : List Nat}
    (h : structLike ty = some (fields, order)) (horder : order.Perm (List.range fields.length))
    (hparts : ∀ field ∈ fields, HasLayout (convertTy field)
      (layoutSizeOfTy field, layoutAlignOfTy field)) :
    ∀ index < (projectedFields ty).length, ∃ layout offset,
      fieldOffsetOf ty index = some offset ∧ aggregateFieldLayout (convertTy ty) = some layout ∧
        (layout[convertedField ty index]?).map Prod.fst = some offset := by
  obtain ⟨hconvert, -, -, -, hprojected, -, -, hoffset⟩ := structLike_cases h
  intro index hindex
  rw [hprojected] at hindex
  have hlayouts := permute_hasLayout horder hparts
  have hlength : (permute order (fieldLayouts fields)).length = fields.length := by
    rw [fieldLayouts_eq, permute_map, List.length_map]
    exact (permute_perm horder).length_eq
  have hlt := fieldMemoryPosition_lt horder hindex
  rw [← hlength, ← length_structLikeFieldOffsets _ 0] at hlt
  rcases hconvert with hconvert | ⟨rfl, -⟩
  · refine ⟨_, _, (hoffset index hindex).trans (List.getElem?_eq_getElem hlt),
      by rw [hconvert]; exact fieldsLayout_eq hlayouts 0, ?_⟩
    rw [← List.getElem?_map, List.map_fst_zip, convertedField_structLike h]
    · exact List.getElem?_eq_getElem hlt
    · rw [length_structLikeFieldOffsets, hlayouts.length_eq]
  · exact absurd hindex (Nat.not_lt_zero index)

/-- Once its parts are laid out alike, the alignment decides whether a
    struct-like type is. -/
theorem agrees_structLike {ty : RustTy} {fields : List RustTy} {order : List Nat}
    (h : structLike ty = some (fields, order)) (horder : order.Perm (List.range fields.length))
    (hparts : ∀ field ∈ fields, HasLayout (convertTy field)
      (layoutSizeOfTy field, layoutAlignOfTy field)) :
    Agrees ty ↔ maxAlign (fieldLayouts fields) = structLikeAlign (fieldLayouts fields) := by
  obtain ⟨hconvert, hsize, halign, -, -, -, -, -⟩ := structLike_cases h
  have hlayouts := permute_hasLayout horder hparts
  have hperm : (permute order (fieldLayouts fields)).Perm (fieldLayouts fields) := by
    apply permute_perm
    rw [fieldLayouts_eq, List.length_map]
    exact horder
  rcases hconvert with hconvert | ⟨rfl, hconvert⟩
  · constructor
    · intro hagrees
      have hstack := hagrees.layout.2
      rw [hconvert, stackAlignOf_struct hlayouts, halign, maxAlign_perm hperm] at hstack
      exact Option.some.inj hstack
    · intro heq
      refine ⟨⟨?_, ?_⟩, structLike_offsets h horder hparts⟩
      · rw [hconvert, stackSizeOf_struct hlayouts, hsize, structLikeSize_eq, maxAlign_perm hperm,
          heq, structLikeAlign_perm hperm]
      · rw [hconvert, stackAlignOf_struct hlayouts, halign, maxAlign_perm hperm, heq]
  · refine ⟨fun _ => rfl, fun _ => ⟨?_, structLike_offsets h horder hparts⟩⟩
    rw [hconvert, hsize, halign, List.perm_nil.mp hperm]
    exact ⟨rfl, rfl⟩

/-! ## Other types -/

/-- A type without fields agrees when its size and alignment do. -/
theorem agrees_of_no_fields {ty : RustTy} (h : projectedFields ty = [])
    (hlayout : HasLayout (convertTy ty) (layoutSizeOfTy ty, layoutAlignOfTy ty)) : Agrees ty := by
  refine ⟨hlayout, fun index hindex => ?_⟩
  rw [h] at hindex
  exact absurd hindex (Nat.not_lt_zero index)

theorem hasLayout_int (width : Nat) (sign : Llvm.Signedness) (h : 8 ≤ width) :
    HasLayout (.int width sign) ((width + 7) / 8, intAlign width) := by
  constructor
  · rw [stackSizeOf, scalarSizeOf]
    exact congrArg some (by omega)
  · rw [stackAlignOf, scalarSizeOf, Option.map_some, clampAlign, intAlign]
    exact congrArg some (by omega)

theorem hasLayout_twoWords (second : Ty) (h : HasLayout second (8, 8)) :
    HasLayout (.struct [.pointer, second]) (16, 8) := by
  have hpointer : HasLayout .pointer (8, 8) := ⟨rfl, rfl⟩
  have hfields : List.Forall₂ HasLayout [.pointer, second] [(8, 8), (8, 8)] :=
    .cons hpointer (.cons h .nil)
  exact ⟨(stackSizeOf_struct hfields).trans (by decide), stackAlignOf_struct hfields⟩

/-- A union is as many bytes as its largest field. -/
def unionStorage (size : Nat) : Ty := if size = 0 then .unit else .array byteTy size

theorem hasLayout_unionStorage (size : Nat) : HasLayout (unionStorage size) (size, 1) := by
  rw [unionStorage]
  split
  case isTrue h => rw [h]; exact ⟨rfl, rfl⟩
  case isFalse =>
    have hbyte : HasLayout byteTy (1, 1) := hasLayout_int 8 .unsigned (Nat.le_refl 8)
    have harray := hbyte.array size
    rw [alignTo_one, Nat.one_mul] at harray
    exact harray

/-- The alignment of an enum in the back end is a power of two as well. -/
theorem enumStackAlign_eq (layout : EnumLayout) :
    enumStackAlign layout = 2 ^ min layout.logAlign 3 := by
  rw [enumStackAlign, EnumLayout.align, Nat.max_eq_left Nat.one_le_two_pow]
  rcases Nat.le_total layout.logAlign 3 with h | h
  · have hle : 2 ^ layout.logAlign ≤ 8 := Nat.pow_le_pow_right (by decide) h
    rw [Nat.min_eq_left h, Nat.min_eq_left hle]
  · have hle : 8 ≤ 2 ^ layout.logAlign := Nat.pow_le_pow_right (n := 2) (by decide) h
    rw [Nat.min_eq_right h, Nat.min_eq_right hle, show 2 ^ 3 = 8 from rfl]

theorem enumStackAlign_dvd (layout : EnumLayout) : enumStackAlign layout ∣ layout.size := by
  rw [enumStackAlign_eq]
  exact Nat.dvd_trans (Nat.pow_dvd_pow 2 (Nat.min_le_left _ _)) layout.padded

/-- The words of the blob of an enum are as many bytes as the enum. -/
theorem hasLayout_enumBlob (layout : EnumLayout) (h : layout.size ≠ 0) :
    HasLayout (enumBlobTy layout) (layout.size, enumStackAlign layout) := by
  have hone : 1 ≤ enumStackAlign layout := by
    rw [enumStackAlign_eq]
    exact Nat.one_le_two_pow
  have height : enumStackAlign layout ≤ 8 := Nat.min_le_right _ _
  have hpadded (value : Nat) (hdvd : enumStackAlign layout ∣ value) :
      alignTo value (enumStackAlign layout) = value := by
    rw [enumStackAlign_eq] at hdvd ⊢
    exact alignTo_two_pow hdvd
  rw [enumBlobTy, if_neg h]
  apply HasLayout.wrap _ hone (hpadded _ (enumStackAlign_dvd layout))
  have hword := hasLayout_int (enumStackAlign layout * 8) .unsigned (by omega)
  rw [show (enumStackAlign layout * 8 + 7) / 8 = enumStackAlign layout by omega,
    show intAlign (enumStackAlign layout * 8) = enumStackAlign layout by
      rw [intAlign]; omega] at hword
  have harray := hword.array (layout.size / enumStackAlign layout)
  rw [hpadded _ (Nat.dvd_refl _), Nat.mul_div_cancel' (enumStackAlign_dvd layout)] at harray
  exact harray

/-- An enum without a size converts to the unit, which is not aligned. -/
theorem agrees_enum (layout : EnumLayout) :
    Agrees (.enum layout) ↔ (layout.size = 0 → layout.align = 1) := by
  by_cases h : layout.size = 0
  · have hconvert : convertTy (.enum layout) = .unit := by rw [convertTy, enumBlobTy, if_pos h]
    have hone : 1 ≤ layout.align := Nat.one_le_two_pow
    constructor
    · intro hagrees _
      have halign := hagrees.layout.2
      rw [hconvert, stackAlignOf, layoutAlignOfTy, enumStackAlign] at halign
      have heq := Option.some.inj halign
      simp only at heq
      omega
    · intro himp
      apply agrees_of_no_fields rfl
      rw [hconvert, layoutSizeOfTy, layoutAlignOfTy, enumStackAlign, himp h, h]
      exact ⟨rfl, rfl⟩
  · refine ⟨fun _ hzero => absurd hzero h, fun _ => agrees_of_no_fields rfl ?_⟩
    rw [convertTy, layoutSizeOfTy, layoutAlignOfTy]
    exact hasLayout_enumBlob layout h

/-- All fields of a union start where its bytes do. -/
theorem agrees_union (fields : List RustTy) (repr : Representation) :
    Agrees (.union fields repr) := by
  have hconvert : convertTy (.union fields repr) =
      .struct [unionStorage (((fieldLayouts fields).map Prod.fst).foldl max 0)] := by
    rw [convertTy, unionStorage]
  have hstorage := hasLayout_unionStorage (((fieldLayouts fields).map Prod.fst).foldl max 0)
  constructor
  · rw [hconvert, layoutSizeOfTy, layoutAlignOfTy]
    exact hstorage.wrap (Nat.le_refl 1) (alignTo_one _)
  · intro index hindex
    have hlayout := fieldsLayout_eq (.cons hstorage .nil) 0
    refine ⟨_, 0, ?_, by rw [hconvert]; exact hlayout, ?_⟩
    · rw [fieldOffsetOf]
      exact if_neg (Nat.not_le.mpr hindex)
    · rw [show convertedField (.union fields repr) index = 0 from rfl, structLikeFieldOffsets,
        alignTo_one]
      split <;> rfl

theorem agrees_array (elem : RustTy) (len : Nat)
    (h : HasLayout (convertTy elem) (layoutSizeOfTy elem, layoutAlignOfTy elem)) :
    Agrees (.array elem len) := by
  apply agrees_of_no_fields rfl
  rw [convertTy, layoutSizeOfTy, layoutAlignOfTy]
  exact h.array len

/-- The array a slice converts to has no elements. -/
theorem agrees_slice (elem : RustTy)
    (h : HasLayout (convertTy elem) (layoutSizeOfTy elem, layoutAlignOfTy elem)) :
    Agrees (.slice elem) ↔ layoutSizeOfTy elem = 0 := by
  have harray := h.array 0
  rw [Nat.mul_zero] at harray
  constructor
  · intro hagrees
    have hsize := hagrees.layout.1
    rw [convertTy, layoutSizeOfTy, harray.1] at hsize
    exact (Option.some.inj hsize).symm
  · intro hzero
    apply agrees_of_no_fields rfl
    rw [convertTy, layoutSizeOfTy, layoutAlignOfTy, hzero]
    exact harray

/-- A type that is made of no other, and is no enum. -/
def isScalar : RustTy → Bool
  | .enum _ | .slice _ | .array _ _ | .tuple _ _ | .struct _ _ _ | .closure _ _ | .union _ _ => false
  | _ => true

theorem agrees_scalar {ty : RustTy} (h : isScalar ty = true) : Agrees ty := by
  have hword : HasLayout (.int 64 .unsigned) (8, 8) := ⟨rfl, rfl⟩
  cases ty with
  | enum => cases h
  | slice => cases h
  | array => cases h
  | tuple => cases h
  | struct => cases h
  | closure => cases h
  | union => cases h
  | int kind =>
    apply agrees_of_no_fields rfl
    rw [convertTy, layoutSizeOfTy, layoutAlignOfTy]
    exact hasLayout_int _ _ (by cases kind <;> decide)
  | uint kind =>
    apply agrees_of_no_fields rfl
    rw [convertTy, layoutSizeOfTy, layoutAlignOfTy]
    exact hasLayout_int _ _ (by cases kind <;> decide)
  | ref tail =>
    apply agrees_of_no_fields rfl
    rcases tail with _ | tail
    · exact ⟨rfl, rfl⟩
    · cases tail with
      | dynamic => exact hasLayout_twoWords _ ⟨rfl, rfl⟩
      | str => exact hasLayout_twoWords _ hword
      | slice => exact hasLayout_twoWords _ hword
  | fmtArguments =>
    refine ⟨hasLayout_twoWords _ ⟨rfl, rfl⟩, fun index hindex => ?_⟩
    have hlayout : aggregateFieldLayout (convertTy .fmtArguments) =
        some [(0, .pointer), (8, .pointer)] := by decide
    obtain rfl | rfl : index = 0 ∨ index = 1 := by
      rw [projectedFields, List.length_cons, List.length_singleton] at hindex
      omega
    · exact ⟨_, 0, rfl, hlayout, rfl⟩
    · exact ⟨_, 8, rfl, hlayout, rfl⟩
  | fmtArgumentType => exact agrees_of_no_fields rfl (hasLayout_twoWords _ ⟨rfl, rfl⟩)
  | _ => exact agrees_of_no_fields rfl ⟨rfl, rfl⟩

/-! ## All types -/

/-- What one can read off a type of its layout is what the importer computes. -/
structure ReadsOff (ty : RustTy) : Prop where
  zero : layoutSizeOfTy ty = 0 ↔ zeroSized ty = true
  align : layoutAlignOfTy ty = fullAlign ty

theorem readsOff_structLike {ty : RustTy} {fields : List RustTy} {order : List Nat}
    (h : structLike ty = some (fields, order)) (horder : order.Perm (List.range fields.length))
    (hmax : maxAlign (fieldLayouts fields) = structLikeAlign (fieldLayouts fields))
    (hparts : ∀ field ∈ fields, ReadsOff field) : ReadsOff ty := by
  obtain ⟨-, hsize, halign, -, -, hzero, hfull, -⟩ := structLike_cases h
  have hperm : (permute order (fieldLayouts fields)).Perm (fieldLayouts fields) := by
    apply permute_perm
    rw [fieldLayouts_eq, List.length_map]
    exact horder
  constructor
  · rw [hsize, structLikeSize_eq_zero, hzero, allZeroSized_iff]
    constructor
    · intro hall field hmem
      refine (hparts field hmem).zero.mp (hall (_, layoutAlignOfTy field) (hperm.mem_iff.mpr ?_))
      rw [fieldLayouts_eq]
      exact List.mem_map_of_mem hmem
    · intro hall layout hlayout
      rw [hperm.mem_iff, fieldLayouts_eq, List.mem_map] at hlayout
      obtain ⟨field, hmem, rfl⟩ := hlayout
      exact (hparts field hmem).zero.mpr (hall field hmem)
  · rw [halign, ← hmax, hfull, fullAligns_eq, maxAlign, fieldLayouts_eq, List.foldl_map]
    apply List.foldl_ext
    intro align field hmem
    rw [(hparts field hmem).align]

theorem foldl_max_eq_zero (sizes : List Nat) (start : Nat) :
    sizes.foldl max start = 0 ↔ start = 0 ∧ ∀ size ∈ sizes, size = 0 := by
  induction sizes generalizing start with
  | nil => simp
  | cons size sizes ih =>
    rw [List.foldl_cons, ih, List.forall_mem_cons, Nat.max_eq_zero_iff, and_assoc]

theorem readsOff_union (fields : List RustTy) (repr : Representation)
    (hparts : ∀ field ∈ fields, ReadsOff field) : ReadsOff (.union fields repr) := by
  refine ⟨?_, by rw [layoutAlignOfTy, fullAlign]⟩
  rw [layoutSizeOfTy, foldl_max_eq_zero, zeroSized, allZeroSized_iff, fieldLayouts_eq,
    List.map_map, List.forall_mem_map]
  constructor
  · exact fun hall field hmem => (hparts field hmem).zero.mp (hall.2 field hmem)
  · exact fun hall => ⟨rfl, fun field hmem => (hparts field hmem).zero.mpr (hall field hmem)⟩

theorem readsOff_enum (layout : EnumLayout) : ReadsOff (.enum layout) := by
  constructor
  · rw [layoutSizeOfTy, zeroSized, beq_iff_eq]
  · have hone : 1 ≤ layout.align := Nat.one_le_two_pow
    rw [layoutAlignOfTy, enumStackAlign, fullAlign, Nat.max_eq_left hone]

/-- Where the layouts agree throughout a type, the sizes and alignments are
    those one can read off it. -/
theorem readsOff_of_agrees (ty : RustTy) (horder : WellOrdered ty)
    (h : ∀ part, RustTy.Component part ty → Agrees part) : ReadsOff ty := by
  induction ty using RustTy.parts_induction with
  | h ty ih =>
    have hty := h ty (.refl ty)
    replace ih : ∀ part ∈ ty.parts, ReadsOff part := fun part hpart =>
      ih part hpart (fun c hc => horder c (.part hc hpart)) (fun c hc => h c (.part hc hpart))
    cases hlike : structLike ty with
    | some p =>
      obtain ⟨fields, order⟩ := p
      obtain ⟨-, -, -, hparts, -, -, -, -⟩ := structLike_cases hlike
      have hperm := horder ty (.refl ty) fields order hlike
      have hlayouts (field : RustTy) (hf : field ∈ fields) :=
        (h field (.part (.refl field) (hparts ▸ hf))).layout
      exact readsOff_structLike hlike hperm ((agrees_structLike hlike hperm hlayouts).mp hty)
        (hparts ▸ ih)
    | none =>
      cases ty with
      | tuple => cases hlike
      | struct => cases hlike
      | closure => cases hlike
      | slice elem =>
        have hmem : elem ∈ (RustTy.slice elem).parts := List.mem_singleton.mpr rfl
        have helem := (agrees_slice elem (h elem (.part (.refl elem) hmem)).layout).mp hty
        refine ⟨?_, by rw [layoutAlignOfTy, fullAlign, (ih elem hmem).align]⟩
        rw [layoutSizeOfTy, zeroSized]
        exact ⟨fun _ => rfl, fun _ => helem⟩
      | array elem len =>
        have hmem : elem ∈ (RustTy.array elem len).parts := List.mem_singleton.mpr rfl
        refine ⟨?_, by rw [layoutAlignOfTy, fullAlign, (ih elem hmem).align]⟩
        rw [layoutSizeOfTy, zeroSized, Nat.mul_eq_zero, alignTo_eq_zero, (ih elem hmem).zero,
          Bool.or_eq_true, beq_iff_eq]
      | union fields repr => exact readsOff_union fields repr ih
      | enum layout => exact readsOff_enum layout
      | int kind => exact ⟨by cases kind <;> decide, by cases kind <;> rfl⟩
      | uint kind => exact ⟨by cases kind <;> decide, by cases kind <;> rfl⟩
      | ref tail => exact ⟨by cases tail <;> simp [layoutSizeOfTy, zeroSized], rfl⟩
      | _ => exact ⟨by decide, rfl⟩

/-- The alignments of the fields of a struct-like type are the same on either
    side when none without a size is aligned more strictly than the others. -/
theorem maxAlign_fields_iff {fields : List RustTy} (hparts : ∀ field ∈ fields, ReadsOff field) :
    maxAlign (fieldLayouts fields) = structLikeAlign (fieldLayouts fields) ↔
      ∀ field ∈ fields, zeroSized field = true →
        fullAlign field ≤ 1 ∨
          ∃ sized ∈ fields, zeroSized sized = false ∧ fullAlign field ≤ fullAlign sized := by
  rw [maxAlign_eq_iff, fieldLayouts_eq, List.forall_mem_map]
  apply forall₂_congr
  intro field hmem
  rw [(hparts field hmem).zero, (hparts field hmem).align]
  refine imp_congr_right fun _ => or_congr_right ?_
  constructor
  · rintro ⟨_, hlayout, hne, hle⟩
    obtain ⟨sized, hsized, rfl⟩ := List.mem_map.mp hlayout
    rw [(hparts sized hsized).align] at hle
    refine ⟨sized, hsized, ?_, hle⟩
    rw [← Bool.not_eq_true, ← (hparts sized hsized).zero]
    exact hne
  · rintro ⟨sized, hsized, hzero, hle⟩
    refine ⟨_, List.mem_map_of_mem hsized, ?_, ?_⟩
    · rw [ne_eq, (hparts sized hsized).zero, hzero]
      decide
    · rw [(hparts sized hsized).align]
      exact hle

/-- A type of parts laid out alike is laid out alike exactly when its members
    without a size are not aligned more strictly than the others. -/
theorem agrees_iff_of_parts (ty : RustTy) (horder : WellOrdered ty)
    (h : ∀ part ∈ ty.parts, ∀ c, RustTy.Component c part → Agrees c) :
    Agrees ty ↔ ZeroSizedUnaligned ty := by
  have hreads : ∀ part ∈ ty.parts, ReadsOff part := fun part hpart =>
    readsOff_of_agrees part (fun c hc => horder c (.part hc hpart)) (h part hpart)
  have hlayouts (part : RustTy) (hpart : part ∈ ty.parts) : HasLayout (convertTy part)
      (layoutSizeOfTy part, layoutAlignOfTy part) := (h part hpart part (.refl part)).layout
  have hlike (fields : List RustTy) (order : List Nat)
      (heq : structLike ty = some (fields, order)) : Agrees ty ↔
      ∀ field ∈ fields, zeroSized field = true → fullAlign field ≤ 1 ∨
        ∃ sized ∈ fields, zeroSized sized = false ∧ fullAlign field ≤ fullAlign sized := by
    obtain ⟨-, -, -, hparts, -, -, -, -⟩ := structLike_cases heq
    rw [hparts] at hreads hlayouts
    rw [agrees_structLike heq (horder ty (.refl ty) fields order heq) hlayouts,
      maxAlign_fields_iff hreads]
  cases ty with
  | tuple fields order =>
    rw [hlike fields order rfl]
    exact ⟨fun hall _ _ heq => by cases heq; exact hall, fun hall => hall _ _ rfl⟩
  | struct fields order repr =>
    rw [hlike fields order rfl]
    exact ⟨fun hall _ _ heq => by cases heq; exact hall, fun hall => hall _ _ rfl⟩
  | closure fields order =>
    rw [hlike fields order rfl]
    exact ⟨fun hall _ _ heq => by cases heq; exact hall, fun hall => hall _ _ rfl⟩
  | slice elem =>
    have hmem : elem ∈ (RustTy.slice elem).parts := List.mem_singleton.mpr rfl
    rw [agrees_slice elem (hlayouts elem hmem), (hreads elem hmem).zero, ZeroSizedUnaligned]
  | enum layout => exact agrees_enum layout
  | array elem len =>
    have helem := hlayouts elem (List.mem_singleton.mpr rfl)
    exact ⟨fun _ _ _ heq => (by cases heq), fun _ => agrees_array elem len helem⟩
  | union fields repr =>
    exact ⟨fun _ _ _ heq => (by cases heq), fun _ => agrees_union fields repr⟩
  | _ => exact iff_of_true (agrees_scalar rfl) fun _ _ heq => (by cases heq)

theorem agrees_components_iff (ty : RustTy) (horder : WellOrdered ty) :
    (∀ part, RustTy.Component part ty → Agrees part) ↔
      ∀ part, RustTy.Component part ty → ZeroSizedUnaligned part := by
  induction ty using RustTy.parts_induction with
  | h ty ih =>
    rw [RustTy.forall_components_iff, RustTy.forall_components_iff]
    have hparts : (∀ part ∈ ty.parts, ∀ c, RustTy.Component c part → Agrees c) ↔
        ∀ part ∈ ty.parts, ∀ c, RustTy.Component c part → ZeroSizedUnaligned c :=
      forall₂_congr fun part hpart => ih part hpart fun c hc => horder c (.part hc hpart)
    rw [← hparts]
    exact and_congr_left fun h => agrees_iff_of_parts ty horder h

/-- The layout the importer computes is that of the back end, on a type and all
    it is made of, exactly when nowhere in it a member without a size is
    aligned more strictly than those with one. -/
theorem layouts_agree_iff (ty : RustTy) (horder : WellOrdered ty) :
    (∀ part, RustTy.Component part ty → Agrees part) ↔
      ∀ part, RustTy.Component part ty → ZeroSizedUnaligned part :=
  agrees_components_iff ty horder

/-- `struct { empty: [u64; 0], last }`. -/
def afterEmptyWords (last : UintTy) : RustTy :=
  .struct [.array (.uint .u64) 0, .uint last] [0, 1] .rust

theorem component_afterEmptyWords {last : UintTy} {part : RustTy}
    (h : RustTy.Component part (afterEmptyWords last)) :
    part = afterEmptyWords last ∨ part = .array (.uint .u64) 0 ∨ ∃ kind, part = .uint kind := by
  cases h with
  | refl => exact Or.inl rfl
  | part h hfield =>
    rcases List.mem_cons.mp hfield with rfl | hlast
    · cases h with
      | refl => exact Or.inr (Or.inl rfl)
      | part h helem =>
        rw [List.mem_singleton.mp helem] at h
        cases h with
        | refl => exact Or.inr (Or.inr ⟨_, rfl⟩)
        | part _ hnone => exact absurd hnone List.not_mem_nil
    · rw [List.mem_singleton.mp hlast] at h
      cases h with
      | refl => exact Or.inr (Or.inr ⟨_, rfl⟩)
      | part _ hnone => exact absurd hnone List.not_mem_nil

theorem wellOrdered_afterEmptyWords (last : UintTy) : WellOrdered (afterEmptyWords last) := by
  intro part h fields order hlike
  rcases component_afterEmptyWords h with rfl | rfl | ⟨kind, rfl⟩
  · cases hlike
    exact List.Perm.refl _
  · cases hlike
  · cases hlike

theorem zeroSizedUnaligned_afterEmptyWords {part : RustTy}
    (h : RustTy.Component part (afterEmptyWords .u64)) : ZeroSizedUnaligned part := by
  rcases component_afterEmptyWords h with rfl | rfl | ⟨kind, rfl⟩
  · intro fields order hlike field hmem _
    cases hlike
    refine Or.inr ⟨.uint .u64, by simp, by decide, ?_⟩
    rcases List.mem_cons.mp hmem with rfl | hlast
    · decide
    · rw [List.mem_singleton.mp hlast]
  · exact fun _ _ hlike => (by cases hlike)
  · exact fun _ _ hlike => (by cases hlike)

/-- In front of a word an empty array of words changes nothing. -/
theorem layouts_agree_iff_word : Agrees (afterEmptyWords .u64) :=
  (layouts_agree_iff _ (wellOrdered_afterEmptyWords .u64)).mpr
    (fun _ => zeroSizedUnaligned_afterEmptyWords) _ (.refl _)

/-- A struct of an empty array of words and a byte is one byte for the
    importer, and eight for the back end. -/
theorem afterEmptyWords_disagrees :
    ¬ ∀ ty, WellOrdered ty → Agrees ty := by
  intro h
  have hsize := (h _ (wellOrdered_afterEmptyWords .u8)).layout.1
  have hback : stackSizeOf (convertTy (afterEmptyWords .u8)) = some 8 := by decide
  have hone : layoutSizeOfTy (afterEmptyWords .u8) = 1 := by decide
  rw [hback, hone] at hsize
  cases hsize

end Crabbit.Importer
