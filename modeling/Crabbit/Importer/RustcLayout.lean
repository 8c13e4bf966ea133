/-
  Crabbit.Importer.RustcLayout

  The layout rustc gives a type, and where the importer's own layout is it.

  The importer takes no representation attribute into account, nor members
  without a size; it aligns 128-bit integers as words and unions not at all.
  An alignment that differs shows where the padding does.
-/

import Crabbit.Importer.LayoutAgreement

namespace Crabbit.Importer

/-! ## rustc's layout -/

/-- The alignment of a field, lowered by `packed`. -/
def Representation.lower (repr : Representation) (align : Nat) : Nat :=
  match repr.pack with
  | none => align
  | some n => min align n

/-- The alignment of a type, raised by `align`. -/
def Representation.raise (repr : Representation) (align : Nat) : Nat :=
  match repr.align with
  | none => align
  | some n => max align n

/-- Each field at the least multiple of its alignment. -/
def placesFrom : List FieldLayout → Nat → List Nat
  | [], _ => []
  | (size, align) :: fields, offset =>
      alignTo offset align :: placesFrom fields (alignTo offset align + size)

def endFrom : List FieldLayout → Nat → Nat
  | [], offset => offset
  | (size, align) :: fields, offset => endFrom fields (alignTo offset align + size)

mutual

/-- The ABI alignment of a type. -/
def rustcAlign : RustTy → Nat
  | .bool | .str | .fnDef | .never => 1
  | .char | .f32 => 4
  | .f64 | .fnPtr | .ref _ | .fmtArguments | .fmtArgumentType => 8
  | .dynamic => 1
  | .int kind => intWidth kind / 8
  | .uint kind => uintWidth kind / 8
  | .array elem _ | .slice elem => rustcAlign elem
  | .tuple fields _ | .closure fields _ => rustcFieldsAlign .rust fields 1
  | .struct fields _ repr | .union fields repr => repr.raise (rustcFieldsAlign repr fields 1)
  | .enum layout => layout.align

/-- The strictest alignment of fields. -/
def rustcFieldsAlign (repr : Representation) : List RustTy → Nat → Nat
  | [], align => align
  | field :: fields, align =>
      rustcFieldsAlign repr fields (max align (repr.lower (rustcAlign field)))

end

mutual

/-- The size of a type; an unsized tail has none. -/
def rustcSize : RustTy → Nat
  | .bool => 1
  | .str | .dynamic | .slice _ | .fnDef | .never => 0
  | .char | .f32 => 4
  | .f64 | .fnPtr => 8
  | .ref tail => if tail.isSome then 16 else 8
  | .fmtArguments | .fmtArgumentType => 16
  | .int kind => intWidth kind / 8
  | .uint kind => uintWidth kind / 8
  | .array elem len => rustcSize elem * len
  | .tuple fields order =>
      alignTo (endFrom (permute order (rustcLayouts .rust fields)) 0)
        (rustcFieldsAlign .rust fields 1)
  | .closure fields order =>
      alignTo (endFrom (permute order (rustcLayouts .rust fields)) 0)
        (rustcFieldsAlign .rust fields 1)
  | .struct fields order repr =>
      alignTo (endFrom (permute order (rustcLayouts repr fields)) 0)
        (repr.raise (rustcFieldsAlign repr fields 1))
  | .union fields repr =>
      alignTo (((rustcLayouts repr fields).map Prod.fst).foldl max 0)
        (repr.raise (rustcFieldsAlign repr fields 1))
  | .enum layout => layout.size

/-- The sizes of fields, and the alignments they are placed by. -/
def rustcLayouts (repr : Representation) : List RustTy → List FieldLayout
  | [] => []
  | field :: fields => (rustcSize field, repr.lower (rustcAlign field)) :: rustcLayouts repr fields

end

/-- The representation attributes of a struct-like type or a union. -/
def reprOf : RustTy → Representation
  | .struct _ _ repr | .union _ repr => repr
  | _ => .rust

/-- The offset of a field, for all but enums. -/
def rustcFieldOffset (ty : RustTy) (index : Nat) : Option Nat :=
  match ty with
  | .union fields _ => if index ≥ fields.length then none else some 0
  | .fmtArguments => (placesFrom [(8, 8), (8, 8)] 0)[index]?
  | ty => (structLike ty).bind fun (fields, order) =>
      if index ≥ fields.length then none
      else (placesFrom (permute order (rustcLayouts (reprOf ty) fields)) 0)[
        fieldMemoryPosition order index]?

/-- The importer's layout of a type is rustc's. -/
structure AgreesWithRustc (ty : RustTy) : Prop where
  size : layoutSizeOfTy ty = rustcSize ty
  offsets : ∀ index < (projectedFields ty).length,
    fieldOffsetOf ty index = rustcFieldOffset ty index

/-! ## Rounding to different alignments -/

def IsPowerOfTwo (n : Nat) : Prop := ∃ k, n = 2 ^ k

/-- The lesser alignment already gives a multiple of the greater. -/
def AlignedAlike (value align align' : Nat) : Prop :=
  max align align' ∣ alignTo value (min align align')

instance (value align align' : Nat) : Decidable (AlignedAlike value align align') :=
  inferInstanceAs (Decidable (_ ∣ _))

theorem alignTo_eq_roundUp (value k : Nat) : alignTo value (2 ^ k) = Lib.roundUp value (2 ^ k) := by
  rw [alignTo]
  split
  case isTrue h =>
    have hk : 2 ^ k = 1 := Nat.le_antisymm h Nat.one_le_two_pow
    exact ((Lib.roundUp_eq_self_iff value k).mpr (hk ▸ Nat.one_dvd value)).symm
  case isFalse => rfl

theorem alignTo_eq_alignTo_iff {align align' : Nat} (h : IsPowerOfTwo align)
    (h' : IsPowerOfTwo align') (value : Nat) :
    alignTo value align = alignTo value align' ↔ AlignedAlike value align align' := by
  obtain ⟨i, rfl⟩ := h
  obtain ⟨j, rfl⟩ := h'
  rcases Nat.le_total i j with hij | hij
  · have hpow : 2 ^ i ≤ 2 ^ j := Nat.pow_le_pow_right (by decide) hij
    rw [AlignedAlike, Nat.max_eq_right hpow, Nat.min_eq_left hpow, alignTo_eq_roundUp,
      alignTo_eq_roundUp, Lib.roundUp_eq_roundUp_iff value hij]
  · have hpow : 2 ^ j ≤ 2 ^ i := Nat.pow_le_pow_right (by decide) hij
    rw [AlignedAlike, Nat.max_eq_left hpow, Nat.min_eq_right hpow, alignTo_eq_roundUp,
      alignTo_eq_roundUp, eq_comm, Lib.roundUp_eq_roundUp_iff value hij]

theorem dvd_alignTo {align : Nat} (h : IsPowerOfTwo align) (value : Nat) :
    align ∣ alignTo value align := by
  obtain ⟨k, rfl⟩ := h
  rw [alignTo_eq_roundUp]
  exact Lib.dvd_roundUp value k

theorem alignTo_eq_self_iff {align : Nat} (h : IsPowerOfTwo align) (value : Nat) :
    alignTo value align = value ↔ align ∣ value := by
  obtain ⟨k, rfl⟩ := h
  rw [alignTo_eq_roundUp]
  exact Lib.roundUp_eq_self_iff value k

theorem IsPowerOfTwo.max {n m : Nat} (hn : IsPowerOfTwo n) (hm : IsPowerOfTwo m) :
    IsPowerOfTwo (max n m) := by
  rcases Nat.le_total n m with h | h
  · rw [Nat.max_eq_right h]
    exact hm
  · rw [Nat.max_eq_left h]
    exact hn

theorem IsPowerOfTwo.min {n m : Nat} (hn : IsPowerOfTwo n) (hm : IsPowerOfTwo m) :
    IsPowerOfTwo (min n m) := by
  rcases Nat.le_total n m with h | h
  · rw [Nat.min_eq_left h]
    exact hn
  · rw [Nat.min_eq_right h]
    exact hm

/-! ## Fields placed by different alignments -/

/-- A field by its size and the two alignments it may be placed by. -/
structure Field where
  size : Nat
  held : Nat
  required : Nat

def Field.asHeld (field : Field) : FieldLayout := (field.size, field.held)

def Field.asRequired (field : Field) : FieldLayout := (field.size, field.required)

/-- Either alignment puts each of the fields at the same place. -/
def SamePlaces : List Field → Nat → Prop
  | [], _ => True
  | field :: fields, offset =>
      AlignedAlike offset field.held field.required ∧
        SamePlaces fields (alignTo offset field.required + field.size)

theorem placesFrom_eq_iff {fields : List Field}
    (hpow : ∀ field ∈ fields, IsPowerOfTwo field.held ∧ IsPowerOfTwo field.required) (offset : Nat) :
    placesFrom (fields.map Field.asHeld) offset = placesFrom (fields.map Field.asRequired) offset ↔
      SamePlaces fields offset := by
  induction fields generalizing offset with
  | nil => exact iff_of_true rfl trivial
  | cons field fields ih =>
    obtain ⟨⟨hheld, hrequired⟩, hfields⟩ := List.forall_mem_cons.mp hpow
    rw [List.map_cons, List.map_cons, Field.asHeld, Field.asRequired, placesFrom, placesFrom,
      SamePlaces, List.cons.injEq, alignTo_eq_alignTo_iff hheld hrequired]
    refine and_congr_right fun halike => ?_
    rw [(alignTo_eq_alignTo_iff hheld hrequired offset).mpr halike]
    exact ih hfields _

theorem endFrom_eq {fields : List Field}
    (hpow : ∀ field ∈ fields, IsPowerOfTwo field.held ∧ IsPowerOfTwo field.required) {offset : Nat}
    (h : SamePlaces fields offset) :
    endFrom (fields.map Field.asHeld) offset = endFrom (fields.map Field.asRequired) offset := by
  induction fields generalizing offset with
  | nil => rfl
  | cons field fields ih =>
    obtain ⟨⟨hheld, hrequired⟩, hfields⟩ := List.forall_mem_cons.mp hpow
    rw [List.map_cons, List.map_cons, Field.asHeld, Field.asRequired, endFrom, endFrom,
      (alignTo_eq_alignTo_iff hheld hrequired offset).mpr h.1]
    exact ih hfields h.2

/-- The alignment the importer places a field by; without a size it is not
    aligned. -/
def placedAlign (field : FieldLayout) : Nat := if field.1 = 0 then 1 else field.2

theorem structLikeFieldOffsets_eq (fields : List FieldLayout) (offset : Nat) :
    structLikeFieldOffsets fields offset =
      placesFrom (fields.map fun field => (field.1, placedAlign field)) offset := by
  induction fields generalizing offset with
  | nil => rfl
  | cons field fields ih =>
    obtain ⟨size, align⟩ := field
    rw [structLikeFieldOffsets, List.map_cons, placesFrom, placedAlign]
    by_cases h : size = 0
    · rw [if_pos h, if_pos h, alignTo_one, show size = 0 from h, Nat.add_zero, ih]
    · rw [if_neg h, if_neg h, ih]

theorem structLikeEnd_eq (fields : List FieldLayout) (offset : Nat) :
    structLikeEnd fields offset =
      endFrom (fields.map fun field => (field.1, placedAlign field)) offset := by
  induction fields generalizing offset with
  | nil => rfl
  | cons field fields ih =>
    obtain ⟨size, align⟩ := field
    rw [structLikeEnd, List.map_cons, endFrom, placedAlign]
    by_cases h : size = 0
    · rw [if_pos h, if_pos h, alignTo_one, show size = 0 from h, Nat.add_zero, ih]
    · rw [if_neg h, if_neg h, ih]

/-! ## Where the padding is the same -/

mutual

/-- The alignment the importer holds a type to have. -/
def heldAlign : RustTy → Nat
  | .bool | .str | .dynamic | .fnDef | .never | .union _ _ => 1
  | .char | .f32 => 4
  | .f64 | .fnPtr | .ref _ | .fmtArguments | .fmtArgumentType => 8
  | .int kind => intAlign (intWidth kind)
  | .uint kind => intAlign (uintWidth kind)
  | .slice elem | .array elem _ => heldAlign elem
  | .tuple fields _ | .struct fields _ _ | .closure fields _ => heldAligns fields 1
  | .enum layout => min layout.align 8

def heldAligns : List RustTy → Nat → Nat
  | [], align => align
  | field :: fields, align =>
      heldAligns fields (if rustcSize field = 0 then align else max align (heldAlign field))

end

/-- A field, with the alignment the importer places it by and that of rustc. -/
def fieldOf (repr : Representation) (field : RustTy) : Field where
  size := rustcSize field
  held := if rustcSize field = 0 then 1 else heldAlign field
  required := repr.lower (rustcAlign field)

/-- Padding by the importer's alignments is padding by those of rustc, between
    the fields and behind the last. -/
def SamePadding (ty : RustTy) : Prop :=
  match ty with
  | .slice elem => rustcSize elem = 0
  | .union fields repr =>
      rustcAlign (.union fields repr) ∣ (fields.map rustcSize).foldl max 0
  | ty => ∀ fields order, structLike ty = some (fields, order) →
      SamePlaces ((permute order fields).map (fieldOf (reprOf ty))) 0 ∧
        AlignedAlike
          (endFrom (((permute order fields).map (fieldOf (reprOf ty))).map Field.asRequired) 0)
          (heldAlign ty) (rustcAlign ty)

/-- `packed` and `align` are powers of two. -/
def Representation.Valid (repr : Representation) : Prop :=
  (∀ n ∈ repr.pack, IsPowerOfTwo n) ∧ ∀ n ∈ repr.align, IsPowerOfTwo n

/-- All that is in the type has its fields in some order, and attributes rustc
    accepts. -/
def WellFormed (ty : RustTy) : Prop :=
  ∀ part, RustTy.Component part ty → Ordered part ∧ (reprOf part).Valid

theorem Representation.rust_valid : Representation.rust.Valid :=
  ⟨fun _ hn => (by cases hn), fun _ hn => (by cases hn)⟩

theorem rustcLayouts_eq (repr : Representation) (fields : List RustTy) :
    rustcLayouts repr fields =
      fields.map fun field => (rustcSize field, repr.lower (rustcAlign field)) := by
  induction fields with
  | nil => rfl
  | cons field fields ih => rw [rustcLayouts, ih, List.map_cons]

/-- What rustc does with a struct-like type. -/
theorem rustc_structLike {ty : RustTy} {fields : List RustTy} {order : List Nat}
    (h : structLike ty = some (fields, order)) :
    rustcSize ty = alignTo (endFrom (permute order (rustcLayouts (reprOf ty) fields)) 0)
      (rustcAlign ty) ∧
    rustcAlign ty = (reprOf ty).raise (rustcFieldsAlign (reprOf ty) fields 1) ∧
    heldAlign ty = heldAligns fields 1 ∧
    (∀ index < fields.length, rustcFieldOffset ty index =
      (placesFrom (permute order (rustcLayouts (reprOf ty) fields)) 0)[
        fieldMemoryPosition order index]?) := by
  cases ty with
  | tuple fs o =>
    cases h
    refine ⟨by rw [rustcSize, rustcAlign]; rfl, by rw [rustcAlign]; rfl, by rw [heldAlign],
      fun index hindex => ?_⟩
    simp only [rustcFieldOffset, structLike, Option.bind_some]
    rw [if_neg (Nat.not_le.mpr hindex)]
  | struct fs o repr =>
    cases h
    refine ⟨by rw [rustcSize, rustcAlign]; rfl, by rw [rustcAlign]; rfl, by rw [heldAlign],
      fun index hindex => ?_⟩
    simp only [rustcFieldOffset, structLike, Option.bind_some]
    rw [if_neg (Nat.not_le.mpr hindex)]
  | closure fs o =>
    cases h
    refine ⟨by rw [rustcSize, rustcAlign]; rfl, by rw [rustcAlign]; rfl, by rw [heldAlign],
      fun index hindex => ?_⟩
    simp only [rustcFieldOffset, structLike, Option.bind_some]
    rw [if_neg (Nat.not_le.mpr hindex)]
  | _ => cases h

/-! ## Alignments are powers of two -/

theorem isPowerOfTwo_of_log {n : Nat} (h : n = 2 ^ Nat.log2 n) : IsPowerOfTwo n := ⟨_, h⟩

theorem isPowerOfTwo_one : IsPowerOfTwo 1 := ⟨0, rfl⟩

theorem isPowerOfTwo_eight : IsPowerOfTwo 8 := ⟨3, rfl⟩

theorem Representation.Valid.lower {repr : Representation} (h : repr.Valid) {align : Nat}
    (halign : IsPowerOfTwo align) : IsPowerOfTwo (repr.lower align) := by
  rw [Representation.lower]
  split
  case h_1 => exact halign
  case h_2 n hn => exact halign.min (h.1 n hn)

theorem Representation.Valid.raise {repr : Representation} (h : repr.Valid) {align : Nat}
    (halign : IsPowerOfTwo align) : IsPowerOfTwo (repr.raise align) := by
  rw [Representation.raise]
  split
  case h_1 => exact halign
  case h_2 n hn => exact halign.max (h.2 n hn)

theorem rustcFieldsAlign_isPowerOfTwo {repr : Representation} (hrepr : repr.Valid)
    {fields : List RustTy} (hfields : ∀ field ∈ fields, IsPowerOfTwo (rustcAlign field))
    {start : Nat} (hstart : IsPowerOfTwo start) :
    IsPowerOfTwo (rustcFieldsAlign repr fields start) := by
  induction fields generalizing start with
  | nil => exact hstart
  | cons field fields ih =>
    obtain ⟨hfield, hfields⟩ := List.forall_mem_cons.mp hfields
    rw [rustcFieldsAlign]
    exact ih hfields (hstart.max (hrepr.lower hfield))

theorem rustcAlign_isPowerOfTwo (ty : RustTy)
    (h : ∀ part, RustTy.Component part ty → (reprOf part).Valid) : IsPowerOfTwo (rustcAlign ty) := by
  induction ty using RustTy.parts_induction with
  | h ty ih =>
    have hty := h ty (.refl ty)
    replace ih : ∀ part ∈ ty.parts, IsPowerOfTwo (rustcAlign part) := fun part hpart =>
      ih part hpart fun c hc => h c (.part hc hpart)
    cases hlike : structLike ty with
    | some p =>
      obtain ⟨fields, order⟩ := p
      obtain ⟨-, -, -, hparts, -, -, -, -⟩ := structLike_cases hlike
      rw [(rustc_structLike hlike).2.1]
      exact hty.raise (rustcFieldsAlign_isPowerOfTwo hty (hparts ▸ ih) isPowerOfTwo_one)
    | none =>
      cases ty with
      | tuple => cases hlike
      | struct => cases hlike
      | closure => cases hlike
      | slice elem => exact ih elem (List.mem_singleton.mpr rfl)
      | array elem len => exact ih elem (List.mem_singleton.mpr rfl)
      | union fields repr =>
        rw [rustcAlign]
        exact hty.raise (rustcFieldsAlign_isPowerOfTwo hty ih isPowerOfTwo_one)
      | enum layout => exact ⟨layout.logAlign, by rw [rustcAlign, EnumLayout.align]⟩
      | int kind => exact isPowerOfTwo_of_log (by cases kind <;> decide)
      | uint kind => exact isPowerOfTwo_of_log (by cases kind <;> decide)
      | ref tail => exact isPowerOfTwo_eight
      | _ => exact isPowerOfTwo_of_log (by decide)

theorem structLikeAlign_isPowerOfTwo {fields : List FieldLayout}
    (h : ∀ field ∈ fields, IsPowerOfTwo field.2) : IsPowerOfTwo (structLikeAlign fields) := by
  suffices hfold : ∀ start, IsPowerOfTwo start → IsPowerOfTwo
      (fields.foldl (fun align field => if field.1 = 0 then align else max align field.2) start) from
    hfold 1 isPowerOfTwo_one
  induction fields with
  | nil => exact fun _ hstart => hstart
  | cons field fields ih =>
    obtain ⟨hfield, hfields⟩ := List.forall_mem_cons.mp h
    intro start hstart
    apply ih hfields
    show IsPowerOfTwo (if field.1 = 0 then start else max start field.2)
    split
    · exact hstart
    · exact hstart.max hfield

/-- The importer's alignment is a power of two, and divides the size. -/
theorem layoutAlignOfTy_dvd (ty : RustTy) (horder : WellOrdered ty) :
    IsPowerOfTwo (layoutAlignOfTy ty) ∧ layoutAlignOfTy ty ∣ layoutSizeOfTy ty := by
  induction ty using RustTy.parts_induction with
  | h ty ih =>
    have hty := horder ty (.refl ty)
    replace ih : ∀ part ∈ ty.parts,
        IsPowerOfTwo (layoutAlignOfTy part) ∧ layoutAlignOfTy part ∣ layoutSizeOfTy part :=
      fun part hpart => ih part hpart fun c hc => horder c (.part hc hpart)
    cases hlike : structLike ty with
    | some p =>
      obtain ⟨fields, order⟩ := p
      obtain ⟨-, hsize, halign, hparts, -, -, -, -⟩ := structLike_cases hlike
      rw [hparts] at ih
      have hpow : IsPowerOfTwo (structLikeAlign (fieldLayouts fields)) := by
        apply structLikeAlign_isPowerOfTwo
        rw [fieldLayouts_eq, List.forall_mem_map]
        exact fun field hmem => (ih field hmem).1
      have hperm : (permute order (fieldLayouts fields)).Perm (fieldLayouts fields) := by
        apply permute_perm
        rw [fieldLayouts_eq, List.length_map]
        exact hty fields order hlike
      rw [hsize, halign, structLikeSize_eq, structLikeAlign_perm hperm]
      exact ⟨hpow, dvd_alignTo hpow _⟩
    | none =>
      cases ty with
      | tuple => cases hlike
      | struct => cases hlike
      | closure => cases hlike
      | slice elem =>
        rw [layoutAlignOfTy, layoutSizeOfTy]
        exact ih elem (List.mem_singleton.mpr rfl)
      | array elem len =>
        obtain ⟨hpow, -⟩ := ih elem (List.mem_singleton.mpr rfl)
        rw [layoutAlignOfTy, layoutSizeOfTy]
        exact ⟨hpow, Nat.dvd_mul_right_of_dvd (dvd_alignTo hpow _) len⟩
      | union fields repr =>
        rw [layoutAlignOfTy]
        exact ⟨isPowerOfTwo_one, Nat.one_dvd _⟩
      | enum layout =>
        rw [layoutAlignOfTy, layoutSizeOfTy]
        exact ⟨⟨_, enumStackAlign_eq layout⟩, enumStackAlign_dvd layout⟩
      | int kind =>
        exact ⟨isPowerOfTwo_of_log (by cases kind <;> decide), by cases kind <;> decide⟩
      | uint kind =>
        exact ⟨isPowerOfTwo_of_log (by cases kind <;> decide), by cases kind <;> decide⟩
      | ref tail =>
        refine ⟨isPowerOfTwo_eight, ?_⟩
        rw [layoutAlignOfTy, layoutSizeOfTy]
        split <;> decide
      | _ => exact ⟨isPowerOfTwo_of_log (by decide), by decide⟩

/-! ## One type -/

/-- The importer's size of a type is rustc's, and its alignment the one held. -/
structure SizedAsRustc (ty : RustTy) : Prop where
  size : layoutSizeOfTy ty = rustcSize ty
  align : layoutAlignOfTy ty = heldAlign ty

theorem heldAligns_eq {fields : List RustTy} (h : ∀ field ∈ fields, SizedAsRustc field)
    (start : Nat) :
    heldAligns fields start = (fieldLayouts fields).foldl (fun align field =>
      if field.1 = 0 then align else max align field.2) start := by
  induction fields generalizing start with
  | nil => rfl
  | cons field fields ih =>
    obtain ⟨hfield, hfields⟩ := List.forall_mem_cons.mp h
    rw [heldAligns, fieldLayouts, List.foldl_cons, ih hfields, hfield.size, hfield.align]

/-- The importer's offsets are those of the alignments it places fields by. -/
theorem asHeld_eq {fields : List RustTy} {order : List Nat}
    (horder : order.Perm (List.range fields.length))
    (h : ∀ field ∈ fields, SizedAsRustc field) (repr : Representation) :
    (permute order (fieldLayouts fields)).map (fun field => (field.1, placedAlign field)) =
      ((permute order fields).map (fieldOf repr)).map Field.asHeld := by
  rw [fieldLayouts_eq, permute_map, List.map_map, List.map_map]
  apply List.map_congr_left
  intro field hmem
  have hfield := h field ((permute_perm horder).mem_iff.mp hmem)
  simp only [Function.comp, placedAlign, Field.asHeld, fieldOf, hfield.size, hfield.align]

theorem asRequired_eq (fields : List RustTy) (order : List Nat) (repr : Representation) :
    permute order (rustcLayouts repr fields) =
      ((permute order fields).map (fieldOf repr)).map Field.asRequired := by
  rw [rustcLayouts_eq, permute_map, List.map_map]
  rfl

/-- A field lies at each position of the memory order. -/
theorem exists_fieldMemoryPosition {order : List Nat} {count position : Nat}
    (horder : order.Perm (List.range count)) (h : position < count) :
    ∃ index < count, fieldMemoryPosition order index = position := by
  have hlength : position < order.length := by
    rw [horder.length_eq, List.length_range]
    exact h
  have hmem : order[position] ∈ order := List.getElem_mem hlength
  have hnodup : order.Nodup := horder.nodup_iff.mpr List.nodup_range
  refine ⟨order[position], List.mem_range.mp (horder.mem_iff.mp hmem), ?_⟩
  rw [fieldMemoryPosition, if_pos hmem]
  exact hnodup.idxOf_getElem position hlength

/-- Offsets agree field by field when they do position by position. -/
theorem offsets_ext {order : List Nat} {places places' : List Nat}
    (horder : order.Perm (List.range places.length)) (hlength : places'.length = places.length)
    (h : ∀ index < places.length,
      places[fieldMemoryPosition order index]? = places'[fieldMemoryPosition order index]?) :
    places = places' := by
  apply List.ext_getElem?
  intro position
  by_cases hlt : position < places.length
  · obtain ⟨index, hindex, hposition⟩ := exists_fieldMemoryPosition horder hlt
    rw [← hposition]
    exact h index hindex
  · rw [List.getElem?_eq_none (by omega), List.getElem?_eq_none (by omega)]

theorem length_placesFrom (fields : List FieldLayout) (offset : Nat) :
    (placesFrom fields offset).length = fields.length := by
  induction fields generalizing offset with
  | nil => rfl
  | cons field fields ih =>
    obtain ⟨size, align⟩ := field
    rw [placesFrom, List.length_cons, ih, List.length_cons]

/-- A struct-like type whose parts have the sizes of rustc is laid out by the
    importer as by rustc exactly when the padding is the same. -/
theorem agreesWithRustc_structLike {ty : RustTy} {fields : List RustTy} {order : List Nat}
    (h : structLike ty = some (fields, order)) (horder : order.Perm (List.range fields.length))
    (hrequired : IsPowerOfTwo (rustcAlign ty)) (hheld : IsPowerOfTwo (heldAlign ty))
    (hpow : ∀ field ∈ fields, IsPowerOfTwo (heldAlign field) ∧
      IsPowerOfTwo ((reprOf ty).lower (rustcAlign field)))
    (hparts : ∀ field ∈ fields, SizedAsRustc field) :
    AgreesWithRustc ty ↔
      SamePlaces ((permute order fields).map (fieldOf (reprOf ty))) 0 ∧
        AlignedAlike
          (endFrom (((permute order fields).map (fieldOf (reprOf ty))).map Field.asRequired) 0)
          (heldAlign ty) (rustcAlign ty) := by
  obtain ⟨-, hsize, halign, -, hprojected, -, -, hoffset⟩ := structLike_cases h
  obtain ⟨hrustc, -, heldEq, hrustcOffset⟩ := rustc_structLike h
  have hperm := permute_perm horder
  have hpowers : ∀ field ∈ (permute order fields).map (fieldOf (reprOf ty)),
      IsPowerOfTwo field.held ∧ IsPowerOfTwo field.required := by
    rw [List.forall_mem_map]
    intro field hmem
    obtain ⟨hfield, hlower⟩ := hpow field (hperm.mem_iff.mp hmem)
    refine ⟨?_, hlower⟩
    rw [fieldOf]
    split
    · exact isPowerOfTwo_one
    · exact hfield
  -- Both sides, in terms of the fields in memory order.
  have hheldAlign : structLikeAlign (permute order (fieldLayouts fields)) = heldAlign ty := by
    have hlayouts : (permute order (fieldLayouts fields)).Perm (fieldLayouts fields) := by
      apply permute_perm
      rw [fieldLayouts_eq, List.length_map]
      exact horder
    rw [structLikeAlign_perm hlayouts, heldEq, heldAligns_eq hparts, structLikeAlign]
  rw [structLikeSize_eq, hheldAlign, structLikeEnd_eq, asHeld_eq horder hparts (reprOf ty)] at hsize
  rw [asRequired_eq] at hrustc
  simp only [structLikeFieldOffsets_eq, asHeld_eq horder hparts (reprOf ty)] at hoffset
  simp only [asRequired_eq] at hrustcOffset
  generalize hall : (permute order fields).map (fieldOf (reprOf ty)) = all at *
  have hcount : all.length = fields.length := by
    rw [← hall, List.length_map]
    exact hperm.length_eq
  rw [← placesFrom_eq_iff hpowers]
  constructor
  · intro hagrees
    have hplaces : placesFrom (all.map Field.asHeld) 0 = placesFrom (all.map Field.asRequired) 0 := by
      have hlength : (placesFrom (all.map Field.asHeld) 0).length = fields.length := by
        rw [length_placesFrom, List.length_map, hcount]
      apply offsets_ext (hlength.symm ▸ horder)
      · rw [length_placesFrom, length_placesFrom, List.length_map, List.length_map]
      · intro index hindex
        rw [hlength] at hindex
        rw [← hoffset index hindex, ← hrustcOffset index hindex]
        exact hagrees.offsets index (hprojected ▸ hindex)
    refine ⟨hplaces, ?_⟩
    rw [← alignTo_eq_alignTo_iff hheld hrequired, ← hrustc, ← hagrees.size, hsize,
      endFrom_eq hpowers ((placesFrom_eq_iff hpowers 0).mp hplaces)]
  · rintro ⟨hplaces, halike⟩
    constructor
    · rw [hsize, hrustc, endFrom_eq hpowers ((placesFrom_eq_iff hpowers 0).mp hplaces)]
      exact (alignTo_eq_alignTo_iff hheld hrequired _).mpr halike
    · intro index hindex
      rw [hprojected] at hindex
      rw [hoffset index hindex, hrustcOffset index hindex, hplaces]

/-! ## All types -/

theorem WellFormed.part {ty part : RustTy} (h : WellFormed ty) (hpart : part ∈ ty.parts) :
    WellFormed part := fun c hc => h c (.part hc hpart)

theorem WellFormed.wellOrdered {ty : RustTy} (h : WellFormed ty) : WellOrdered ty :=
  fun c hc => (h c hc).1

theorem WellFormed.rustcAlign {ty : RustTy} (h : WellFormed ty) : IsPowerOfTwo (rustcAlign ty) :=
  rustcAlign_isPowerOfTwo ty fun c hc => (h c hc).2

/-- Once the sizes of the parts are those of rustc, the importer's alignment is
    the one held. -/
theorem layoutAlignOfTy_eq {ty : RustTy} (h : ∀ part ∈ ty.parts, SizedAsRustc part) :
    layoutAlignOfTy ty = heldAlign ty := by
  cases hlike : structLike ty with
  | some p =>
    obtain ⟨fields, order⟩ := p
    obtain ⟨-, -, halign, hparts, -, -, -, -⟩ := structLike_cases hlike
    rw [halign, (rustc_structLike hlike).2.2.1, heldAligns_eq (hparts ▸ h), structLikeAlign]
  | none =>
    cases ty with
    | tuple => cases hlike
    | struct => cases hlike
    | closure => cases hlike
    | slice elem =>
      rw [layoutAlignOfTy, heldAlign, (h elem (List.mem_singleton.mpr rfl)).align]
    | array elem len =>
      rw [layoutAlignOfTy, heldAlign, (h elem (List.mem_singleton.mpr rfl)).align]
    | enum layout =>
      have hone : 1 ≤ layout.align := Nat.one_le_two_pow
      rw [layoutAlignOfTy, heldAlign, enumStackAlign, Nat.max_eq_left hone]
    | _ => rfl

theorem sizedAsRustc_of_agrees (ty : RustTy)
    (h : ∀ part, RustTy.Component part ty → AgreesWithRustc part) : SizedAsRustc ty := by
  induction ty using RustTy.parts_induction with
  | h ty ih =>
    refine ⟨(h ty (.refl ty)).size, layoutAlignOfTy_eq fun part hpart => ?_⟩
    exact ih part hpart fun c hc => h c (.part hc hpart)

theorem agreesWithRustc_of_no_fields {ty : RustTy} (h : projectedFields ty = []) :
    AgreesWithRustc ty ↔ layoutSizeOfTy ty = rustcSize ty := by
  refine ⟨fun hagrees => hagrees.size, fun hsize => ⟨hsize, fun index hindex => ?_⟩⟩
  rw [h] at hindex
  exact absurd hindex (Nat.not_lt_zero index)

/-- The importer does not pad a union. -/
theorem agreesWithRustc_union {fields : List RustTy} {repr : Representation}
    (hpow : IsPowerOfTwo (rustcAlign (.union fields repr)))
    (hparts : ∀ field ∈ fields, SizedAsRustc field) :
    AgreesWithRustc (.union fields repr) ↔
      rustcAlign (.union fields repr) ∣ (fields.map rustcSize).foldl max 0 := by
  have hsizes : (fieldLayouts fields).map Prod.fst = fields.map rustcSize := by
    rw [fieldLayouts_eq, List.map_map]
    exact List.map_congr_left fun field hmem => (hparts field hmem).size
  have hrustcSizes : (rustcLayouts repr fields).map Prod.fst = fields.map rustcSize := by
    rw [rustcLayouts_eq, List.map_map]
    rfl
  have hrustc : rustcSize (.union fields repr) =
      alignTo ((fields.map rustcSize).foldl max 0) (rustcAlign (.union fields repr)) := by
    rw [rustcSize, rustcAlign, hrustcSizes]
  rw [← alignTo_eq_self_iff hpow, ← hrustc]
  constructor
  · intro hagrees
    rw [← hagrees.size, layoutSizeOfTy, hsizes]
  · intro heq
    refine ⟨?_, fun _ _ => rfl⟩
    rw [heq, layoutSizeOfTy, hsizes]

/-- A type of parts laid out as by rustc is laid out so exactly when the
    padding in it is the same. -/
theorem agreesWithRustc_iff_of_parts (ty : RustTy) (hwf : WellFormed ty)
    (h : ∀ part ∈ ty.parts, ∀ c, RustTy.Component c part → AgreesWithRustc c) :
    AgreesWithRustc ty ↔ SamePadding ty := by
  have hparts : ∀ part ∈ ty.parts, SizedAsRustc part := fun part hpart =>
    sizedAsRustc_of_agrees part (h part hpart)
  have hheldPart (part : RustTy) (hpart : part ∈ ty.parts) : IsPowerOfTwo (heldAlign part) := by
    rw [← (hparts part hpart).align]
    exact (layoutAlignOfTy_dvd part (hwf.part hpart).wellOrdered).1
  have hheld : IsPowerOfTwo (heldAlign ty) := by
    rw [← layoutAlignOfTy_eq hparts]
    exact (layoutAlignOfTy_dvd ty hwf.wellOrdered).1
  cases hlike : structLike ty with
  | some p =>
    obtain ⟨fields, order⟩ := p
    obtain ⟨-, -, -, hfields, -, -, -, -⟩ := structLike_cases hlike
    obtain ⟨hordered, hrepr⟩ := hwf ty (.refl ty)
    have hpow : ∀ field ∈ fields, IsPowerOfTwo (heldAlign field) ∧
        IsPowerOfTwo ((reprOf ty).lower (rustcAlign field)) := fun field hmem =>
      ⟨hheldPart field (hfields ▸ hmem), hrepr.lower (hwf.part (hfields ▸ hmem)).rustcAlign⟩
    rw [agreesWithRustc_structLike hlike (hordered fields order hlike) hwf.rustcAlign hheld hpow
      (hfields ▸ hparts)]
    cases ty with
    | tuple => exact ⟨fun hall _ _ heq => (by cases heq; cases hlike; exact hall),
        fun hall => hall _ _ hlike⟩
    | struct => exact ⟨fun hall _ _ heq => (by cases heq; cases hlike; exact hall),
        fun hall => hall _ _ hlike⟩
    | closure => exact ⟨fun hall _ _ heq => (by cases heq; cases hlike; exact hall),
        fun hall => hall _ _ hlike⟩
    | _ => cases hlike
  | none =>
    cases ty with
    | tuple => cases hlike
    | struct => cases hlike
    | closure => cases hlike
    | union fields repr => exact agreesWithRustc_union hwf.rustcAlign hparts
    | slice elem =>
      rw [agreesWithRustc_of_no_fields rfl, layoutSizeOfTy, rustcSize,
        (hparts elem (List.mem_singleton.mpr rfl)).size, SamePadding]
    | array elem len =>
      have helem := hparts elem (List.mem_singleton.mpr rfl)
      have hwfElem := hwf.part (List.mem_singleton.mpr rfl : elem ∈ [elem])
      obtain ⟨hpow, hdvd⟩ := layoutAlignOfTy_dvd elem hwfElem.wellOrdered
      refine iff_of_true ?_ fun _ _ heq => (by cases heq)
      rw [agreesWithRustc_of_no_fields rfl, layoutSizeOfTy, rustcSize,
        (alignTo_eq_self_iff hpow _).mpr hdvd, helem.size]
    | int kind =>
      refine iff_of_true ((agreesWithRustc_of_no_fields rfl).mpr ?_) fun _ _ heq => (by cases heq)
      cases kind <;> decide
    | uint kind =>
      refine iff_of_true ((agreesWithRustc_of_no_fields rfl).mpr ?_) fun _ _ heq => (by cases heq)
      cases kind <;> decide
    | fmtArguments =>
      refine iff_of_true ⟨rfl, fun index hindex => ?_⟩ fun _ _ heq => (by cases heq)
      obtain rfl | rfl : index = 0 ∨ index = 1 := by
        rw [projectedFields, List.length_cons, List.length_singleton] at hindex
        omega
      · rfl
      · rfl
    | _ =>
      exact iff_of_true ((agreesWithRustc_of_no_fields rfl).mpr rfl) fun _ _ heq => (by cases heq)

/-- The importer's sizes and offsets are those of rustc, in a type and all it is
    made of, exactly when everywhere in it the padding is the same. -/
theorem layouts_agree_with_rustc_iff (ty : RustTy) (hwf : WellFormed ty) :
    (∀ part, RustTy.Component part ty → AgreesWithRustc part) ↔
      ∀ part, RustTy.Component part ty → SamePadding part := by
  induction ty using RustTy.parts_induction with
  | h ty ih =>
    rw [RustTy.forall_components_iff, RustTy.forall_components_iff]
    have hparts : (∀ part ∈ ty.parts, ∀ c, RustTy.Component c part → AgreesWithRustc c) ↔
        ∀ part ∈ ty.parts, ∀ c, RustTy.Component c part → SamePadding c :=
      forall₂_congr fun part hpart => ih part hpart (hwf.part hpart)
    rw [← hparts]
    exact and_congr_left fun h => agreesWithRustc_iff_of_parts ty hwf h

/-- A struct of a byte and a word. -/
def byteAndWord (order : List Nat) (repr : Representation) : RustTy :=
  .struct [.uint .u8, .uint .u64] order repr

theorem component_byteAndWord {order : List Nat} {repr : Representation} {part : RustTy}
    (h : RustTy.Component part (byteAndWord order repr)) :
    part = byteAndWord order repr ∨ ∃ kind, part = .uint kind := by
  cases h with
  | refl => exact Or.inl rfl
  | @part field _ h hfield =>
    have hkind : ∃ kind, field = RustTy.uint kind := by
      rcases List.mem_cons.mp hfield with hbyte | hword
      · exact ⟨_, hbyte⟩
      · exact ⟨_, List.mem_singleton.mp hword⟩
    obtain ⟨kind, rfl⟩ := hkind
    cases h with
    | refl => exact Or.inr ⟨kind, rfl⟩
    | part _ hnone => exact absurd hnone List.not_mem_nil

theorem wellFormed_byteAndWord {order : List Nat} {repr : Representation}
    (horder : order.Perm [0, 1]) (hrepr : repr.Valid) : WellFormed (byteAndWord order repr) := by
  intro part h
  rcases component_byteAndWord h with rfl | ⟨kind, rfl⟩
  · exact ⟨fun fields _ hlike => (by cases hlike; exact horder), hrepr⟩
  · exact ⟨fun _ _ hlike => (by cases hlike), Representation.rust_valid⟩

/-- The word first, then the byte. -/
theorem layouts_agree_with_rustc_iff_swapped : AgreesWithRustc (byteAndWord [1, 0] .rust) := by
  have hwf := wellFormed_byteAndWord (List.Perm.swap 0 1 []) Representation.rust_valid
  refine (layouts_agree_with_rustc_iff _ hwf).mpr (fun part h => ?_) _ (.refl _)
  rcases component_byteAndWord h with rfl | ⟨kind, rfl⟩
  · intro fields order hlike
    cases hlike
    exact ⟨⟨by decide, by decide, trivial⟩, by decide⟩
  · exact fun _ _ hlike => (by cases hlike)

/-- The importer makes a packed struct of a byte and a word sixteen bytes,
    rustc nine. -/
theorem packed_byteAndWord : ¬ ∀ ty, WellFormed ty → AgreesWithRustc ty := by
  intro h
  have hpacked : Representation.Valid ⟨some 1, none⟩ :=
    ⟨fun n hn => (by cases hn; exact isPowerOfTwo_one), fun _ hn => (by cases hn)⟩
  have hsize := (h _ (wellFormed_byteAndWord (List.Perm.refl [0, 1]) hpacked)).size
  revert hsize
  decide

end Crabbit.Importer
