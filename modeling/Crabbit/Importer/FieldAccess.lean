/-
  Crabbit.Importer.FieldAccess

  Building aggregates and projecting fields (`importer/rvalue.rs`,
  `importer/place.rs`): by value, through the converted struct, and by
  address, at the offsets the importer computes.

  The cast between two types is an operation of the upstream dialect, and a
  parameter; a boolean is one byte in memory and one bit as an operand.
-/

import Crabbit.Importer.StackValues

namespace Crabbit.Importer

open Crabbit.Lib (ByteMemory MemoryCodec Val)
open Crabbit.Llvm (Ty)

/-! ## Operands and casts -/

/-- The type of a boolean operand. -/
def boolImmediate : Ty := .int 1 .signless

/-- The type of a boolean in memory. -/
def boolStorage : Ty := .int 8 .signless

def isBoolTy : RustTy → Bool
  | .bool => true
  | _ => false

/-- `convert_immediate_ty`. -/
def convertImmediateTy (ty : RustTy) : Ty := if isBoolTy ty then boolImmediate else convertTy ty

/-- The cast of the dialect between values of two types. -/
abbrev Cast := Ty → Ty → Val → Val

/-- The result is a value of the other type; a boolean is widened by zeros, and
    narrowed to its lowest bit. -/
structure DocumentedCast (cast : Cast) : Prop where
  fits : ∀ source target v, Fits source v → Fits target (cast source target v)
  widen : ∀ bits < 2, cast boolImmediate boolStorage (.scalar bits) = .scalar bits
  narrow : ∀ bits, cast boolStorage boolImmediate (.scalar bits) = .scalar (bits % 2)

/-- `cast_value_to_type`, for any two types. -/
def castTo (cast : Cast) (source target : Ty) (v : Val) : Val :=
  if source = target then v else cast source target v

/-- `normalize_bool_for_immediate`. -/
def normalizeBoolForImmediate (cast : Cast) (ty : RustTy) (v : Val) : Val :=
  if isBoolTy ty then castTo cast boolStorage boolImmediate v else v

/-- `normalize_bool_for_storage`. -/
def normalizeBoolForStorage (cast : Cast) (ty : RustTy) (v : Val) : Val :=
  if isBoolTy ty then castTo cast boolImmediate boolStorage v else v

/-! ## Building aggregates -/

/-- `converted_field_index`. -/
def convertedFieldIndex (ty : RustTy) (index : Nat) : Nat :=
  match structLike ty with
  | some (_, order) => fieldMemoryPosition order index
  | none => index

/-- `aggregate_result_ty`, for structs, tuples and closures: the fields of a
    tuple are those of the operands, in their order. -/
def aggregateResultTy : RustTy → Ty
  | .tuple fields _ => .struct (convertTys fields)
  | ty => convertTy ty

/-- `aggregate_field_type`. -/
def aggregateFieldType : Ty → Nat → Option Ty
  | .array elem _, _ => some elem
  | .struct fields, index => fields[index]?
  | _, _ => none

/-- The operands from the `idx`-th on, inserted into the aggregate so far. -/
def insertOperands (cast : Cast) (ty : RustTy) : Nat → List (RustTy × Val) → Val → Option Val
  | _, [], current => some current
  | idx, (operandTy, v) :: operands, current =>
      (aggregateFieldType (aggregateResultTy ty) (convertedFieldIndex ty idx)).bind fun fieldTy =>
        insertOperands cast ty (idx + 1) operands
          (insertValue current (castTo cast (convertImmediateTy operandTy) fieldTy v)
            (convertedFieldIndex ty idx))

/-- `import_rvalue` of an aggregate and the store to its local; `undef` is the
    value before the first operand is inserted. -/
def storeAggregate (cast : Cast) (ty : RustTy) (operands : List (RustTy × Val)) (undef : Val)
    (mem : ByteMemory) (slot : Int) : Option ByteMemory :=
  (insertOperands cast ty 0 operands undef).map fun v =>
    (laidOut (aggregateResultTy ty)).codec.write v mem slot

/-! ## Projecting fields -/

/-- The type of a field. -/
def fieldTyOf (ty : RustTy) (index : Nat) : Option RustTy :=
  (structLike ty).bind fun (fields, _) => fields[index]?

/-- The type at the end of a path of fields. -/
def projectTy : RustTy → List Nat → Option RustTy
  | ty, [] => some ty
  | ty, index :: path => (fieldTyOf ty index).bind fun fieldTy => projectTy fieldTy path

/-- The value at the end of a path of fields. -/
def extractPath : RustTy → Val → List Nat → Option Val
  | _, current, [] => some current
  | ty, current, index :: path => (fieldTyOf ty index).bind fun fieldTy =>
      extractPath fieldTy (extractValue current (convertedFieldIndex ty index)) path

/-- `try_load_field_projection`: the local is loaded whole. -/
def tryLoadFieldProjection (cast : Cast) (ty : RustTy) (path : List Nat) (mem : ByteMemory)
    (slot : Int) : Option Val :=
  (projectTy ty path).bind fun fieldTy =>
    (extractPath ty ((laidOut (convertTy ty)).codec.read mem slot) path).map
      (normalizeBoolForImmediate cast fieldTy)

/-- `place_addr`, along fields. -/
def placeAddr : RustTy → List Nat → Int → Option Int
  | _, [], addr => some addr
  | ty, index :: path, addr => (fieldOffsetOf ty index).bind fun offset =>
      (fieldTyOf ty index).bind fun fieldTy => placeAddr fieldTy path (addr + offset)

/-- `load_place`, by address. -/
def loadPlaceAddr (cast : Cast) (ty : RustTy) (path : List Nat) (mem : ByteMemory) (slot : Int) :
    Option Val :=
  (projectTy ty path).bind fun fieldTy => (placeAddr ty path slot).map fun addr =>
    normalizeBoolForImmediate cast fieldTy ((laidOut (convertTy fieldTy)).codec.read mem addr)

/-- The aggregates on a path, the innermost first, with the index of the next
    one in each; then the type and the value at its end. -/
def collectParents : RustTy → Val → List Nat → List (Nat × Val) →
    Option (List (Nat × Val) × RustTy × Val)
  | ty, current, [], parents => some (parents, ty, current)
  | ty, current, index :: path, parents => (fieldTyOf ty index).bind fun fieldTy =>
      collectParents fieldTy (extractValue current (convertedFieldIndex ty index)) path
        ((convertedFieldIndex ty index, current) :: parents)

/-- `store_place` to field `last` at the end of a path, which is
    `store_field_projection`: the local is stored back whole. -/
def storeFieldProjection (cast : Cast) (ty : RustTy) (path : List Nat) (last : Nat) (v : Val)
    (mem : ByteMemory) (slot : Int) : Option ByteMemory :=
  (projectTy ty (path ++ [last])).bind fun fieldTy =>
    (collectParents ty ((laidOut (convertTy ty)).codec.read mem slot) path []).map
      fun (parents, parentTy, current) =>
        (laidOut (convertTy ty)).codec.write
          (parents.foldl (fun updated (index, parent) => insertValue parent updated index)
            (insertValue current (normalizeBoolForStorage cast fieldTy v)
              (convertedFieldIndex parentTy last)))
          mem slot

/-! ## Values of structs -/

theorem fits_extractValue {tys : List Ty} {v : Val} {index : Nat} {ty : Ty}
    (hv : Fits (.struct tys) v) (hty : tys[index]? = some ty) :
    ∃ field, extractValue v index = field ∧ Fits ty field := by
  obtain ⟨vs, rfl, hvs⟩ := fits_struct_iff.mp hv
  obtain ⟨hlt, rfl⟩ := List.getElem?_eq_some_iff.mp hty
  have hlt' : index < vs.length := hvs.length_eq ▸ hlt
  refine ⟨vs[index], extractValue_aggregate (List.getElem?_eq_getElem hlt'), ?_⟩
  exact List.forall₂_iff_get.mp hvs |>.2 index hlt hlt'

theorem fits_insertValue {tys : List Ty} {v field : Val} {index : Nat} {ty : Ty}
    (hv : Fits (.struct tys) v) (hty : tys[index]? = some ty) (hfield : Fits ty field) :
    Fits (.struct tys) (insertValue v field index) := by
  obtain ⟨vs, rfl, hvs⟩ := fits_struct_iff.mp hv
  refine fits_struct_iff.mpr ⟨_, rfl, List.forall₂_iff_get.mpr ⟨?_, fun i hi hi' => ?_⟩⟩
  · rw [List.length_set, hvs.length_eq]
  · obtain ⟨hlt, rfl⟩ := List.getElem?_eq_some_iff.mp hty
    simp only [List.get_eq_getElem, List.getElem_set]
    split
    case isTrue h =>
      subst h
      exact hfield
    case isFalse =>
      rw [List.length_set] at hi'
      exact List.forall₂_iff_get.mp hvs |>.2 i hi hi'

theorem extractValue_insertValue_self {tys : List Ty} {v field : Val} {index : Nat}
    (hv : Fits (.struct tys) v) (hlt : index < tys.length) :
    extractValue (insertValue v field index) index = field := by
  obtain ⟨vs, rfl, hvs⟩ := fits_struct_iff.mp hv
  apply extractValue_aggregate
  rw [hvs.length_eq] at hlt
  rw [List.getElem?_set_self hlt]

theorem extractValue_insertValue_of_ne (v field : Val) {index other : Nat} (h : index ≠ other) :
    extractValue (insertValue v field index) other = extractValue v other := by
  cases v with
  | scalar => rfl
  | unit => rfl
  | aggregate vs =>
    show (vs.set index field).getD other .unit = vs.getD other .unit
    rw [List.getD_eq_getElem?_getD, List.getD_eq_getElem?_getD, List.getElem?_set_ne h]

/-! ## Fields in the converted struct -/

theorem permute_getElem? {α : Type} {order : List Nat} {fields : List α}
    (h : ∀ index ∈ order, index < fields.length) (position : Nat) :
    (permute order fields)[position]? = order[position]?.bind fun index => fields[index]? := by
  induction order generalizing position with
  | nil => rfl
  | cons index order ih =>
    obtain ⟨hindex, horder⟩ := List.forall_mem_cons.mp h
    rw [permute, List.filterMap_cons, List.getElem?_eq_getElem hindex]
    cases position with
    | zero => rw [List.getElem?_cons_zero, List.getElem?_cons_zero, Option.bind_some,
        List.getElem?_eq_getElem hindex]
    | succ position =>
      rw [List.getElem?_cons_succ, List.getElem?_cons_succ]
      exact ih horder position

/-- A field lies in memory order at its position. -/
theorem permute_fieldMemoryPosition {α : Type} {order : List Nat} {fields : List α}
    (horder : order.Perm (List.range fields.length)) {index : Nat} (h : index < fields.length) :
    (permute order fields)[fieldMemoryPosition order index]? = fields[index]? := by
  have hmem : index ∈ order := horder.mem_iff.mpr (List.mem_range.mpr h)
  have hlt := List.idxOf_lt_length_of_mem hmem
  rw [permute_getElem? fun index hindex => List.mem_range.mp (horder.mem_iff.mp hindex),
    fieldMemoryPosition, if_pos hmem, List.getElem?_eq_getElem hlt, List.getElem_idxOf hlt,
    Option.bind_some]

theorem fieldMemoryPosition_inj {order : List Nat} {count i j : Nat}
    (horder : order.Perm (List.range count)) (hi : i < count) (hj : j < count)
    (h : fieldMemoryPosition order i = fieldMemoryPosition order j) : i = j := by
  have hmem (index : Nat) (hlt : index < count) : index ∈ order :=
    horder.mem_iff.mpr (List.mem_range.mpr hlt)
  rw [fieldMemoryPosition, fieldMemoryPosition, if_pos (hmem i hi), if_pos (hmem j hj)] at h
  exact (List.idxOf_inj (hmem i hi)).mp h

theorem fieldTyOf_eq_some {ty fieldTy : RustTy} {index : Nat}
    (h : fieldTyOf ty index = some fieldTy) : ∃ fields order,
      structLike ty = some (fields, order) ∧ fields[index]? = some fieldTy := by
  rw [fieldTyOf, Option.bind_eq_some_iff] at h
  obtain ⟨⟨fields, order⟩, hlike, hfield⟩ := h
  exact ⟨fields, order, hlike, hfield⟩

theorem fieldTyOf_eq {ty : RustTy} {fields : List RustTy} {order : List Nat}
    (h : structLike ty = some (fields, order)) (index : Nat) :
    fieldTyOf ty index = fields[index]? := by
  rw [fieldTyOf, h]
  rfl

theorem convertedFieldIndex_eq {ty : RustTy} {fields : List RustTy} {order : List Nat}
    (h : structLike ty = some (fields, order)) (index : Nat) :
    convertedFieldIndex ty index = fieldMemoryPosition order index := by
  rw [convertedFieldIndex, h]

/-- A field is in the converted struct at its converted index. -/
theorem convertedField_eq {ty fieldTy : RustTy} {index : Nat} (horder : Ordered ty)
    (h : fieldTyOf ty index = some fieldTy) : ∃ tys, convertTy ty = .struct tys ∧
      tys[convertedFieldIndex ty index]? = some (convertTy fieldTy) := by
  obtain ⟨fields, order, hlike, hfield⟩ := fieldTyOf_eq_some h
  have hlt := (List.getElem?_eq_some_iff.mp hfield).1
  rcases (structLike_cases hlike).1 with hconvert | ⟨rfl, -⟩
  · refine ⟨_, hconvert, ?_⟩
    rw [permute_map, List.getElem?_map, convertedFieldIndex_eq hlike,
      permute_fieldMemoryPosition (horder fields order hlike) hlt, hfield, Option.map_some]
  · exact absurd hlt (Nat.not_lt_zero index)

theorem convertedFieldIndex_inj {ty f g : RustTy} {i j : Nat} (horder : Ordered ty)
    (hi : fieldTyOf ty i = some f) (hj : fieldTyOf ty j = some g)
    (h : convertedFieldIndex ty i = convertedFieldIndex ty j) : i = j := by
  obtain ⟨fields, order, hlike, hfi⟩ := fieldTyOf_eq_some hi
  obtain ⟨fields', order', hlike', hfj⟩ := fieldTyOf_eq_some hj
  rw [hlike] at hlike'
  cases hlike'
  rw [convertedFieldIndex_eq hlike, convertedFieldIndex_eq hlike] at h
  exact fieldMemoryPosition_inj (horder fields order hlike) (List.getElem?_eq_some_iff.mp hfi).1
    (List.getElem?_eq_some_iff.mp hfj).1 h

theorem fieldTyOf_component {ty fieldTy : RustTy} {index : Nat}
    (h : fieldTyOf ty index = some fieldTy) : fieldTy ∈ ty.parts := by
  obtain ⟨fields, order, hlike, hfield⟩ := fieldTyOf_eq_some h
  obtain ⟨-, -, -, hparts, -, -, -, -⟩ := structLike_cases hlike
  rw [hparts]
  exact List.mem_of_getElem? hfield

theorem WellOrdered.part {ty part : RustTy} (h : WellOrdered ty) (hpart : part ∈ ty.parts) :
    WellOrdered part := fun c hc => h c (.part hc hpart)

/-! ## Storing to a path -/

/-- The value with that at the end of a path replaced. -/
def setPath : RustTy → Val → List Nat → Val → Option Val
  | _, _, [], v => some v
  | ty, current, index :: path, v => (fieldTyOf ty index).bind fun fieldTy =>
      (setPath fieldTy (extractValue current (convertedFieldIndex ty index)) path v).map
        fun updated => insertValue current updated (convertedFieldIndex ty index)

/-- Rebuilding the aggregates from the innermost outwards replaces the value at
    the end of the path. -/
theorem foldl_parents (last : Nat) (v : Val) {ty fieldTy : RustTy} {path : List Nat}
    (h : projectTy ty (path ++ [last]) = some fieldTy) (current : Val)
    (parents : List (Nat × Val)) :
    (collectParents ty current path parents).map (fun (parents, parentTy, current) =>
      parents.foldl (fun updated (index, parent) => insertValue parent updated index)
        (insertValue current v (convertedFieldIndex parentTy last))) =
      (setPath ty current (path ++ [last]) v).map fun updated =>
        parents.foldl (fun updated (index, parent) => insertValue parent updated index) updated := by
  induction path generalizing ty current parents with
  | nil =>
    rw [List.nil_append, projectTy, Option.bind_eq_some_iff] at h
    obtain ⟨f, hf, -⟩ := h
    rw [collectParents, List.nil_append, setPath, hf, Option.bind_some, setPath, Option.map_some,
      Option.map_some, Option.map_some]
  | cons index path ih =>
    rw [List.cons_append, projectTy, Option.bind_eq_some_iff] at h
    obtain ⟨f, hf, hpath⟩ := h
    rw [collectParents, List.cons_append, setPath, hf, Option.bind_some, Option.bind_some,
      ih hpath, Option.map_map]
    rfl

/-- A path to a field that exists can be stored to, and read back. -/
theorem setPath_spec {ty fieldTy : RustTy} {path : List Nat} (horder : WellOrdered ty)
    (h : projectTy ty path = some fieldTy) {current v : Val} (hcurrent : Fits (convertTy ty) current)
    (hv : Fits (convertTy fieldTy) v) : ∃ updated, setPath ty current path v = some updated ∧
      Fits (convertTy ty) updated ∧ extractPath ty updated path = some v := by
  induction path generalizing ty current with
  | nil =>
    rw [projectTy, Option.some.injEq] at h
    subst h
    exact ⟨v, rfl, hv, rfl⟩
  | cons index path ih =>
    rw [projectTy, Option.bind_eq_some_iff] at h
    obtain ⟨f, hf, hpath⟩ := h
    obtain ⟨tys, hconvert, hty⟩ := convertedField_eq (horder ty (.refl ty)) hf
    rw [hconvert] at hcurrent
    obtain ⟨field, hextract, hfield⟩ := fits_extractValue hcurrent hty
    obtain ⟨updated, hset, hfits, hread⟩ := ih (horder.part (fieldTyOf_component hf)) hpath hfield
    have hlt := (List.getElem?_eq_some_iff.mp hty).1
    refine ⟨insertValue current updated (convertedFieldIndex ty index), ?_, ?_, ?_⟩
    · rw [setPath, hf, Option.bind_some, hextract, hset, Option.map_some]
    · rw [hconvert]
      exact fits_insertValue hcurrent hty hfits
    · rw [extractPath, hf, Option.bind_some, extractValue_insertValue_self hcurrent hlt, hread]

/-- Neither of two paths leads to a part of what the other leads to. -/
inductive Diverge : List Nat → List Nat → Prop where
  | here {i j : Nat} (h : i ≠ j) (path path' : List Nat) : Diverge (i :: path) (j :: path')
  | there (index : Nat) {path path' : List Nat} (h : Diverge path path') :
      Diverge (index :: path) (index :: path')

/-- What is at the end of a path stays when another is stored to. -/
theorem extractPath_setPath_of_diverge {path path' : List Nat} (hdiverge : Diverge path path')
    {ty fieldTy fieldTy' : RustTy} (horder : WellOrdered ty)
    (h : projectTy ty path = some fieldTy) (h' : projectTy ty path' = some fieldTy')
    {current v updated : Val} (hcurrent : Fits (convertTy ty) current)
    (hset : setPath ty current path v = some updated) :
    extractPath ty updated path' = extractPath ty current path' := by
  induction hdiverge generalizing ty current updated with
  | @here i j hne path path' =>
    rw [projectTy, Option.bind_eq_some_iff] at h h'
    obtain ⟨f, hf, -⟩ := h
    obtain ⟨g, hg, -⟩ := h'
    rw [setPath, hf, Option.bind_some, Option.map_eq_some_iff] at hset
    obtain ⟨inner, -, rfl⟩ := hset
    have hindex : convertedFieldIndex ty i ≠ convertedFieldIndex ty j := fun heq =>
      hne (convertedFieldIndex_inj (horder ty (.refl ty)) hf hg heq)
    rw [extractPath, extractPath, hg, Option.bind_some, Option.bind_some,
      extractValue_insertValue_of_ne _ _ hindex]
  | @there index path path' _ ih =>
    rw [projectTy, Option.bind_eq_some_iff] at h h'
    obtain ⟨f, hf, hpath⟩ := h
    obtain ⟨g, hg, hpath'⟩ := h'
    rw [hf, Option.some.injEq] at hg
    subst hg
    rw [setPath, hf, Option.bind_some, Option.map_eq_some_iff] at hset
    obtain ⟨inner, hinner, rfl⟩ := hset
    obtain ⟨tys, hconvert, hty⟩ := convertedField_eq (horder ty (.refl ty)) hf
    rw [hconvert] at hcurrent
    obtain ⟨field, hextract, hfield⟩ := fits_extractValue hcurrent hty
    have hlt := (List.getElem?_eq_some_iff.mp hty).1
    rw [hextract] at hinner
    rw [extractPath, extractPath, hf, Option.bind_some, Option.bind_some,
      extractValue_insertValue_self hcurrent hlt, hextract]
    exact ih (horder.part (fieldTyOf_component hf)) hpath hpath' hfield hinner

/-! ## Types the back end lays out -/

/-- The back end lays all converted types out. -/
theorem supported_convertTy (ty : RustTy) (horder : WellOrdered ty) :
    supported (convertTy ty) = true := by
  induction ty using RustTy.parts_induction with
  | h ty ih =>
    have hty := horder ty (.refl ty)
    replace ih : ∀ part ∈ ty.parts, supported (convertTy part) = true := fun part hpart =>
      ih part hpart (horder.part hpart)
    cases hlike : structLike ty with
    | some p =>
      obtain ⟨fields, order⟩ := p
      obtain ⟨hconvert, -, -, hparts, -, -, -, -⟩ := structLike_cases hlike
      rw [hparts] at ih
      rcases hconvert with hconvert | ⟨-, hconvert⟩
      · rw [hconvert, supported, allSupported_iff, permute_map, List.forall_mem_map]
        exact fun field hmem =>
          ih field ((permute_perm (hty fields order hlike)).mem_iff.mp hmem)
      · rw [hconvert]
        rfl
    | none =>
      cases ty with
      | tuple => cases hlike
      | struct => cases hlike
      | closure => cases hlike
      | slice elem =>
        rw [convertTy, supported]
        exact ih elem (List.mem_singleton.mpr rfl)
      | array elem len =>
        rw [convertTy, supported]
        exact ih elem (List.mem_singleton.mpr rfl)
      | union fields repr =>
        rw [convertTy]
        split <;> rfl
      | enum layout =>
        rw [convertTy, enumBlobTy]
        split <;> rfl
      | ref tail =>
        cases tail with
        | none => rfl
        | some tail => cases tail <;> rfl
      | _ => rfl

/-! ## Operands -/

/-- The operand is a value of the type. -/
def IsOperand (ty : RustTy) (v : Val) : Prop :=
  if isBoolTy ty then ∃ bits < 2, v = .scalar bits else Fits (convertTy ty) v

theorem eq_bool_of_isBoolTy {ty : RustTy} (h : isBoolTy ty = true) : ty = .bool := by
  cases ty <;> first | rfl | cases h

variable {cast : Cast} (hcast : DocumentedCast cast)

/-- In an aggregate an operand is as it is stored. -/
theorem castTo_convertTy (ty : RustTy) (v : Val) :
    castTo cast (convertImmediateTy ty) (convertTy ty) v = normalizeBoolForStorage cast ty v := by
  rw [convertImmediateTy, normalizeBoolForStorage]
  split
  case isTrue h =>
    rw [eq_bool_of_isBoolTy h]
    rfl
  case isFalse => rw [castTo, if_pos rfl]

include hcast in
/-- A stored operand is a value of the converted type, and reads back. -/
theorem normalizeBool_spec {ty : RustTy} {v : Val} (h : IsOperand ty v) :
    Fits (convertTy ty) (normalizeBoolForStorage cast ty v) ∧
      normalizeBoolForImmediate cast ty (normalizeBoolForStorage cast ty v) = v := by
  rw [IsOperand] at h
  rw [normalizeBoolForImmediate, normalizeBoolForStorage]
  split at h
  case isTrue hbool =>
    obtain ⟨bits, hlt, rfl⟩ := h
    have hne : boolImmediate ≠ boolStorage := by decide
    have hwiden : castTo cast boolImmediate boolStorage (.scalar bits) = .scalar bits := by
      rw [castTo, if_neg hne, hcast.widen bits hlt]
    rw [if_pos hbool, if_pos hbool, eq_bool_of_isBoolTy hbool, hwiden]
    constructor
    · exact ⟨bits, Nat.lt_trans hlt (by decide), rfl⟩
    · rw [castTo, if_neg hne.symm, hcast.narrow, Nat.mod_eq_of_lt hlt]
  case isFalse hbool =>
    rw [if_neg hbool, if_neg hbool]
    exact ⟨h, rfl⟩

end Crabbit.Importer
