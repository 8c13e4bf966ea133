/-
  Crabbit.Importer.FieldsReadBack

  When the fields of an aggregate read back.  Values are stored whole, as the
  back end lays the converted type out, and read by value or at the importer's
  offsets; a tuple is moreover built as a struct of its operands in their own
  order.  Fields read back exactly when an operand survives the cast to the
  type it is inserted as, at the same offset, and the offsets of both layouts
  agree along the paths to fields with a size.
-/

import Crabbit.Importer.FieldAccess
import Mathlib.Algebra.Order.BigOperators.Group.List

namespace Crabbit.Importer

open Crabbit.Lib (ByteMemory MemoryCodec Val)
open Crabbit.Llvm (Ty)
open Crabbit.Aarch64 (stackSizeOf aggregateFieldLayout)

/-! ## Offsets -/

/-- Where the back end has a member of a struct. -/
def memberOffset (ty : Ty) (position : Nat) : Option Nat :=
  (aggregateFieldLayout ty).bind fun layout => (layout[position]?).map Prod.fst

/-- Where it has a field of a converted type. -/
def stackOffsetOf (ty : RustTy) (index : Nat) : Option Nat :=
  memberOffset (convertTy ty) (convertedFieldIndex ty index)

/-- The offset of what a path leads to, by that of each field. -/
def pathOffset (offsetOf : RustTy → Nat → Option Nat) : RustTy → List Nat → Option Nat
  | _, [] => some 0
  | ty, index :: path => (offsetOf ty index).bind fun offset =>
      (fieldTyOf ty index).bind fun fieldTy => (pathOffset offsetOf fieldTy path).map (offset + ·)

theorem memberOffset_struct {tys : List Ty} (h : supported (.struct tys) = true) (position : Nat) :
    memberOffset (.struct tys) position =
      (structLikeFieldOffsets (tys.map fun ty => (laidOut ty).layout) 0)[position]? := by
  rw [supported] at h
  have hlayouts := hasLayout_laidOuts tys h
  rw [laidOuts_eq, List.map_map] at hlayouts
  rw [memberOffset, aggregateFieldLayout, fieldsLayout_eq hlayouts, Option.bind_some,
    ← List.getElem?_map, List.map_fst_zip]
  · rfl
  · rw [length_structLikeFieldOffsets, List.length_map]

theorem exists_memberOffset {tys : List Ty} (h : supported (.struct tys) = true) {position : Nat}
    (hlt : position < tys.length) :
    ∃ offset, memberOffset (.struct tys) position = some offset := by
  rw [memberOffset_struct h]
  refine ⟨_, List.getElem?_eq_getElem ?_⟩
  rw [length_structLikeFieldOffsets, List.length_map]
  exact hlt

theorem stackSizeOf_convertTy {ty : RustTy} (horder : WellOrdered ty) :
    stackSizeOf (convertTy ty) = some (laidOut (convertTy ty)).codec.size :=
  (hasLayout_laidOut _ (supported_convertTy ty horder)).1

/-- The importer has an offset for each field. -/
theorem exists_fieldOffset {ty fieldTy : RustTy} {index : Nat} (horder : Ordered ty)
    (h : fieldTyOf ty index = some fieldTy) : ∃ offset, fieldOffsetOf ty index = some offset := by
  obtain ⟨fields, order, hlike, hfield⟩ := fieldTyOf_eq_some h
  obtain ⟨-, -, -, -, -, -, -, hoffset⟩ := structLike_cases hlike
  have hlt := (List.getElem?_eq_some_iff.mp hfield).1
  have hposition := fieldMemoryPosition_lt (horder fields order hlike) hlt
  refine ⟨_, (hoffset index hlt).trans (List.getElem?_eq_getElem ?_)⟩
  rw [length_structLikeFieldOffsets, fieldLayouts_eq, permute_map, List.length_map,
    (permute_perm (horder fields order hlike)).length_eq]
  exact hposition

/-- A field of a value in memory is at the back end's offset, and stored there
    alone. -/
theorem field_spec {ty fieldTy : RustTy} {index : Nat} (horder : WellOrdered ty)
    (h : fieldTyOf ty index = some fieldTy) : ∃ offset, stackOffsetOf ty index = some offset ∧
      ∀ mem a,
        extractValue ((laidOut (convertTy ty)).codec.read mem a) (convertedFieldIndex ty index) =
          (laidOut (convertTy fieldTy)).codec.read mem (a + offset) ∧
        ∀ v, (laidOut (convertTy ty)).codec.write (insertValue
            ((laidOut (convertTy ty)).codec.read mem a) v (convertedFieldIndex ty index)) mem a =
          (laidOut (convertTy fieldTy)).codec.write v mem (a + offset) := by
  obtain ⟨tys, hconvert, hty⟩ := convertedField_eq (horder ty (.refl ty)) h
  have hsupported := supported_convertTy ty horder
  rw [hconvert] at hsupported
  obtain ⟨offset, hoffset⟩ :=
    exists_memberOffset hsupported (List.getElem?_eq_some_iff.mp hty).1
  refine ⟨offset, by rw [stackOffsetOf, hconvert, hoffset], fun mem a => ?_⟩
  rw [memberOffset_struct hsupported] at hoffset
  rw [hconvert]
  exact ⟨extractValue_read hty hoffset mem a, fun v => write_insertValue hty hoffset v mem a⟩

/-! ## Paths by value -/

/-- What is at the end of a path is at the back end's offset, and stored there
    alone. -/
theorem path_spec {ty fieldTy : RustTy} {path : List Nat} (horder : WellOrdered ty)
    (h : projectTy ty path = some fieldTy) :
    ∃ offset, pathOffset stackOffsetOf ty path = some offset ∧ ∀ mem a,
        extractPath ty ((laidOut (convertTy ty)).codec.read mem a) path =
          some ((laidOut (convertTy fieldTy)).codec.read mem (a + offset)) ∧
        ∀ v, (setPath ty ((laidOut (convertTy ty)).codec.read mem a) path v).map
            (fun updated => (laidOut (convertTy ty)).codec.write updated mem a) =
          some ((laidOut (convertTy fieldTy)).codec.write v mem (a + offset)) := by
  induction path generalizing ty with
  | nil =>
    rw [projectTy, Option.some.injEq] at h
    subst h
    refine ⟨0, rfl, fun mem a => ?_⟩
    rw [Int.natCast_zero, Int.add_zero]
    exact ⟨rfl, fun v => rfl⟩
  | cons index path ih =>
    rw [projectTy, Option.bind_eq_some_iff] at h
    obtain ⟨f, hf, hpath⟩ := h
    obtain ⟨outer, houter, hfield⟩ := field_spec horder hf
    obtain ⟨inner, hinner, hrest⟩ := ih (horder.part (fieldTyOf_component hf)) hpath
    refine ⟨outer + inner, ?_, fun mem a => ?_⟩
    · rw [pathOffset, houter, Option.bind_some, hf, Option.bind_some, hinner, Option.map_some]
    obtain ⟨hread, hwrite⟩ := hfield mem a
    obtain ⟨hextract, hset⟩ := hrest mem (a + outer)
    rw [Nat.cast_add, ← Int.add_assoc]
    refine ⟨?_, fun v => ?_⟩
    · rw [extractPath, hf, Option.bind_some, hread, hextract]
    · rw [setPath, hf, Option.bind_some, hread, Option.map_map, ← hset v]
      exact congrArg (Option.map · _) (funext fun updated => hwrite updated)

/-- The address of a place is the slot's, by the importer's offsets. -/
theorem placeAddr_eq (ty : RustTy) (path : List Nat) (a : Int) :
    placeAddr ty path a = (pathOffset fieldOffsetOf ty path).map fun offset : Nat => a + offset := by
  induction path generalizing ty a with
  | nil =>
    rw [placeAddr, pathOffset, Option.map_some, Int.natCast_zero, Int.add_zero]
  | cons index path ih =>
    rw [placeAddr, pathOffset]
    cases fieldOffsetOf ty index with
    | none => rfl
    | some offset =>
      rw [Option.bind_some, Option.bind_some]
      cases fieldTyOf ty index with
      | none => rfl
      | some fieldTy =>
        rw [Option.bind_some, Option.bind_some, ih, Option.map_map]
        refine congrArg (Option.map · _) (funext fun inner => ?_)
        show a + offset + inner = a + ((offset + inner : Nat) : Int)
        omega

theorem exists_pathOffset {ty fieldTy : RustTy} {path : List Nat} (horder : WellOrdered ty)
    (h : projectTy ty path = some fieldTy) :
    ∃ offset, pathOffset fieldOffsetOf ty path = some offset := by
  induction path generalizing ty with
  | nil => exact ⟨0, rfl⟩
  | cons index path ih =>
    rw [projectTy, Option.bind_eq_some_iff] at h
    obtain ⟨f, hf, hpath⟩ := h
    obtain ⟨outer, houter⟩ := exists_fieldOffset (horder ty (.refl ty)) hf
    obtain ⟨inner, hinner⟩ := ih (horder.part (fieldTyOf_component hf)) hpath
    refine ⟨outer + inner, ?_⟩
    rw [pathOffset, houter, Option.bind_some, hf, Option.bind_some, hinner, Option.map_some]

/-! ## Operands that differ in a byte -/

/-- At each of a value's bytes there are two operands that are not both read
    where that byte is the same. -/
theorem exists_operands_ne (cast : Cast) {ty : RustTy} {i : Nat}
    (hi : i ∈ (laidOut (convertTy ty)).codec.places) :
    ∃ v v', IsOperand ty v ∧ IsOperand ty v' ∧ ∀ (mem mem' : ByteMemory) (a : Int),
      normalizeBoolForImmediate cast ty ((laidOut (convertTy ty)).codec.read mem a) = v →
      normalizeBoolForImmediate cast ty ((laidOut (convertTy ty)).codec.read mem' a) = v' →
        mem (a + i) ≠ mem' (a + i) := by
  have hbytes := laidOut_bytewise (convertTy ty)
  by_cases hbool : isBoolTy ty = true
  · refine ⟨.scalar 0, .scalar 1, ?_, ?_, fun mem mem' a hv hv' heq => ?_⟩
    · rw [IsOperand, if_pos hbool]
      exact ⟨0, by decide, rfl⟩
    · rw [IsOperand, if_pos hbool]
      exact ⟨1, by decide, rfl⟩
    -- There is only the one byte.
    have hread : (laidOut (convertTy ty)).codec.read mem a =
        (laidOut (convertTy ty)).codec.read mem' a := by
      refine hbytes.read_eq_iff.mpr fun j hj => ?_
      have hlt (k : Nat) (hk : k ∈ (laidOut (convertTy ty)).codec.places) : k < 1 := by
        have hlt := hbytes.lt k hk
        rw [eq_bool_of_isBoolTy hbool] at hlt
        exact hlt
      obtain rfl : j = i := by
        have := hlt j hj
        have := hlt i hi
        omega
      exact heq
    rw [hread, hv'] at hv
    cases hv
  · have hoperand (mem : ByteMemory) :
        IsOperand ty ((laidOut (convertTy ty)).codec.read mem 0) := by
      rw [IsOperand, if_neg hbool]
      exact (laidOut (convertTy ty)).codec.fits_read mem 0
    refine ⟨_, _, hoperand fun _ => 0, hoperand (Function.update (fun _ => 0) (i : Int) 1),
      fun mem mem' a hv hv' heq => ?_⟩
    rw [normalizeBoolForImmediate, if_neg hbool] at hv hv'
    have hzero := hbytes.read_eq_iff.mp hv i hi
    have hone := hbytes.read_eq_iff.mp hv' i hi
    rw [Int.zero_add, Function.update_self] at hone
    rw [hzero, hone] at heq
    exact absurd heq (by decide)

/-- Some operand. -/
theorem exists_operand (ty : RustTy) : ∃ v, IsOperand ty v := by
  by_cases hbool : isBoolTy ty = true
  · refine ⟨.scalar 0, ?_⟩
    rw [IsOperand, if_pos hbool]
    exact ⟨0, by decide, rfl⟩
  · refine ⟨(laidOut (convertTy ty)).codec.read (fun _ => 0) 0, ?_⟩
    rw [IsOperand, if_neg hbool]
    exact (laidOut (convertTy ty)).codec.fits_read _ 0

/-! ## Stores of fields -/

variable {cast : Cast} (hcast : DocumentedCast cast)

/-- A field is read by value at the back end's offset. -/
theorem tryLoadFieldProjection_eq (cast : Cast) {ty fieldTy : RustTy} {path : List Nat}
    (horder : WellOrdered ty) (h : projectTy ty path = some fieldTy) {offset : Nat}
    (hoffset : pathOffset stackOffsetOf ty path = some offset) (mem : ByteMemory) (slot : Int) :
    tryLoadFieldProjection cast ty path mem slot = some (normalizeBoolForImmediate cast fieldTy
      ((laidOut (convertTy fieldTy)).codec.read mem (slot + offset))) := by
  obtain ⟨offset', hoffset', hpath⟩ := path_spec horder h
  rw [hoffset, Option.some.injEq] at hoffset'
  subst hoffset'
  rw [tryLoadFieldProjection, h, Option.bind_some, (hpath mem slot).1, Option.map_some]

/-- By address, at the importer's. -/
theorem loadPlaceAddr_eq (cast : Cast) {ty fieldTy : RustTy} {path : List Nat}
    (h : projectTy ty path = some fieldTy) {offset : Nat}
    (hoffset : pathOffset fieldOffsetOf ty path = some offset) (mem : ByteMemory) (slot : Int) :
    loadPlaceAddr cast ty path mem slot = some (normalizeBoolForImmediate cast fieldTy
      ((laidOut (convertTy fieldTy)).codec.read mem (slot + offset))) := by
  rw [loadPlaceAddr, h, Option.bind_some, placeAddr_eq, hoffset, Option.map_some, Option.map_some]

/-- A field is stored at the back end's offset, and nothing else is. -/
theorem storeFieldProjection_eq (cast : Cast) {ty fieldTy : RustTy} {path : List Nat} {last : Nat}
    (horder : WellOrdered ty) (h : projectTy ty (path ++ [last]) = some fieldTy) {offset : Nat}
    (hoffset : pathOffset stackOffsetOf ty (path ++ [last]) = some offset) (v : Val)
    (mem : ByteMemory) (slot : Int) :
    storeFieldProjection cast ty path last v mem slot =
      some ((laidOut (convertTy fieldTy)).codec.write (normalizeBoolForStorage cast fieldTy v) mem
        (slot + offset)) := by
  obtain ⟨offset', hoffset', hpath⟩ := path_spec horder h
  rw [hoffset, Option.some.injEq] at hoffset'
  subst hoffset'
  have hfold := foldl_parents last (normalizeBoolForStorage cast fieldTy v) h
    ((laidOut (convertTy ty)).codec.read mem slot) []
  have hset := (hpath mem slot).2 (normalizeBoolForStorage cast fieldTy v)
  rw [storeFieldProjection, h, Option.bind_some, ← hset]
  simp only [List.foldl_nil, Option.map_id'] at hfold
  rw [← hfold, Option.map_map]
  rfl

include hcast in
/-- A field stored to reads back by value, and those on paths that diverge stay. -/
theorem storeFieldProjection_spec {ty fieldTy : RustTy} {path : List Nat} {last : Nat} {v : Val}
    (horder : WellOrdered ty) (h : projectTy ty (path ++ [last]) = some fieldTy)
    (hv : IsOperand fieldTy v) (mem : ByteMemory) (slot : Int) :
    ∃ mem', storeFieldProjection cast ty path last v mem slot = some mem' ∧
      tryLoadFieldProjection cast ty (path ++ [last]) mem' slot = some v ∧
      ∀ path' fieldTy', projectTy ty path' = some fieldTy' → Diverge (path ++ [last]) path' →
        tryLoadFieldProjection cast ty path' mem' slot =
          tryLoadFieldProjection cast ty path' mem slot := by
  obtain ⟨hstored, hback⟩ := normalizeBool_spec hcast hv
  have hcurrent := (laidOut (convertTy ty)).codec.fits_read mem slot
  obtain ⟨updated, hset, hfits, hread⟩ := setPath_spec horder h hcurrent hstored
  have hfold := foldl_parents last (normalizeBoolForStorage cast fieldTy v) h
    ((laidOut (convertTy ty)).codec.read mem slot) []
  rw [hset, Option.map_some] at hfold
  obtain ⟨found, hfound, heq⟩ := Option.map_eq_some_iff.mp hfold
  have hwrite := (laidOut (convertTy ty)).codec.read_write hfits mem slot
  refine ⟨(laidOut (convertTy ty)).codec.write updated mem slot, ?_, ?_, ?_⟩
  · rw [storeFieldProjection, h, Option.bind_some, hfound, Option.map_some]
    exact congrArg (fun v => some ((laidOut (convertTy ty)).codec.write v mem slot)) heq
  · rw [tryLoadFieldProjection, h, Option.bind_some, hwrite, hread, Option.map_some, hback]
  · intro path' fieldTy' h' hdiverge
    rw [tryLoadFieldProjection, tryLoadFieldProjection, h', Option.bind_some, Option.bind_some,
      hwrite, extractPath_setPath_of_diverge hdiverge horder h h' hcurrent hset]

/-! ## Aggregates -/

/-- An aggregate is built as a struct of the converted types, in memory order or
    in that of the operands. -/
theorem aggregateResultTy_eq {ty : RustTy} {fields : List RustTy} {order : List Nat}
    (hlike : structLike ty = some (fields, order)) (horder : Ordered ty) :
    ∃ tys, aggregateResultTy ty = .struct tys ∧ tys.Perm (fields.map convertTy) := by
  have hperm := permute_map convertTy order fields ▸
    (permute_perm (horder fields order hlike)).map convertTy
  cases ty with
  | tuple =>
    cases hlike
    exact ⟨_, rfl, .of_eq (convertTys_eq fields)⟩
  | struct =>
    cases hlike
    exact ⟨_, show convertTy _ = _ by rw [convertTy, convertTys_eq], hperm⟩
  | closure =>
    cases hlike
    exact ⟨_, show convertTy _ = _ by rw [convertTy, convertTys_eq], hperm⟩
  | _ => cases hlike

theorem convertedFieldIndex_lt {ty fieldTy : RustTy} {fields : List RustTy} {order : List Nat}
    {index : Nat} (hlike : structLike ty = some (fields, order)) (horder : Ordered ty)
    (h : fieldTyOf ty index = some fieldTy) : convertedFieldIndex ty index < fields.length := by
  rw [fieldTyOf_eq hlike] at h
  rw [convertedFieldIndex_eq hlike]
  exact fieldMemoryPosition_lt (horder fields order hlike) (List.getElem?_eq_some_iff.mp h).1

/-- Each position is that of a field. -/
theorem exists_convertedField {ty : RustTy} {fields : List RustTy} {order : List Nat}
    (hlike : structLike ty = some (fields, order)) (horder : Ordered ty) {position : Nat}
    (hlt : position < fields.length) : ∃ index fieldTy, fieldTyOf ty index = some fieldTy ∧
      convertedFieldIndex ty index = position := by
  have hperm := horder fields order hlike
  have hposition : position < order.length := by
    rw [hperm.length_eq, List.length_range]
    exact hlt
  have hmem : order[position] ∈ order := List.getElem_mem hposition
  have hindex := List.mem_range.mp (hperm.mem_iff.mp hmem)
  refine ⟨order[position], fields[order[position]], ?_, ?_⟩
  · rw [fieldTyOf_eq hlike, List.getElem?_eq_getElem hindex]
  · rw [convertedFieldIndex_eq hlike, fieldMemoryPosition, if_pos hmem]
    exact (hperm.nodup_iff.mpr List.nodup_range).idxOf_getElem position hposition

theorem fits_convertImmediateTy {ty : RustTy} {v : Val} (h : IsOperand ty v) :
    Fits (convertImmediateTy ty) v := by
  rw [IsOperand] at h
  rw [convertImmediateTy]
  split at h
  case isTrue hbool =>
    obtain ⟨bits, hlt, rfl⟩ := h
    rw [if_pos hbool]
    exact ⟨bits, Nat.lt_trans hlt (by decide), rfl⟩
  case isFalse hbool =>
    rw [if_neg hbool]
    exact h

include hcast in
theorem fits_castTo {source target : Ty} {v : Val} (h : Fits source v) :
    Fits target (castTo cast source target v) := by
  rw [castTo]
  split
  case isTrue heq => exact heq ▸ h
  case isFalse => exact hcast.fits source target v h

include hcast in
/-- Each operand is inserted at the position of its field, cast to the type
    there. -/
theorem insertOperands_spec {ty : RustTy} {fields : List RustTy} {order : List Nat} {tys : List Ty}
    (hlike : structLike ty = some (fields, order)) (horder : Ordered ty)
    (hresult : aggregateResultTy ty = .struct tys) (hcount : tys.length = fields.length)
    {operands : List (RustTy × Val)} {idx : Nat}
    (htys : operands.map Prod.fst = fields.drop idx)
    (hoperands : ∀ operand ∈ operands, IsOperand operand.1 operand.2) {current : Val}
    (hcurrent : Fits (.struct tys) current) :
    ∃ v, insertOperands cast ty idx operands current = some v ∧ Fits (.struct tys) v ∧
      (∀ index < idx, index < fields.length →
        extractValue v (convertedFieldIndex ty index) =
          extractValue current (convertedFieldIndex ty index)) ∧
      ∀ k operand found, operands[k]? = some operand →
        tys[convertedFieldIndex ty (idx + k)]? = some found →
        extractValue v (convertedFieldIndex ty (idx + k)) =
          castTo cast (convertImmediateTy operand.1) found operand.2 := by
  induction operands generalizing idx current with
  | nil => exact ⟨current, rfl, hcurrent, fun _ _ _ => rfl, fun _ _ _ h _ => (by cases h)⟩
  | cons operand operands ih =>
    obtain ⟨operandTy, v⟩ := operand
    obtain ⟨hoperand, hoperands⟩ := List.forall_mem_cons.mp hoperands
    rw [List.map_cons] at htys
    have hidx : fields[idx]? = some operandTy := by
      have h := congrArg (·[0]?) htys
      simp only [List.getElem?_cons_zero, List.getElem?_drop, Nat.add_zero] at h
      exact h.symm
    have hrest : operands.map Prod.fst = fields.drop (idx + 1) := by
      rw [← List.tail_drop, ← htys, List.tail_cons]
    have hfield : fieldTyOf ty idx = some operandTy := by
      rw [fieldTyOf_eq hlike, hidx]
    have hlt := convertedFieldIndex_lt hlike horder hfield
    rw [← hcount] at hlt
    have hty := List.getElem?_eq_getElem hlt
    have hinserted := fits_insertValue hcurrent hty
      (fits_castTo hcast (fits_convertImmediateTy hoperand))
    obtain ⟨w, hw, hfits, hbefore, hafter⟩ := ih hrest hoperands hinserted
    refine ⟨w, ?_, hfits, fun index hindex hlength => ?_, fun k operand found hk hfound => ?_⟩
    · rw [insertOperands, hresult, aggregateFieldType, hty, Option.bind_some, hw]
    · have hother : fieldTyOf ty index = some fields[index] := by
        rw [fieldTyOf_eq hlike, List.getElem?_eq_getElem hlength]
      have hne : convertedFieldIndex ty idx ≠ convertedFieldIndex ty index := fun heq =>
        Nat.ne_of_gt hindex (convertedFieldIndex_inj horder hfield hother heq)
      rw [hbefore index (by omega) hlength, extractValue_insertValue_of_ne _ _ hne]
    · cases k with
      | zero =>
        rw [List.getElem?_cons_zero, Option.some.injEq] at hk
        subst hk
        have hlength := (List.getElem?_eq_some_iff.mp hidx).1
        rw [Nat.add_zero] at hfound ⊢
        rw [hty, Option.some.injEq] at hfound
        rw [hbefore idx (Nat.lt_succ_self idx) hlength,
          extractValue_insertValue_self hcurrent hlt, hfound]
      | succ k =>
        rw [List.getElem?_cons_succ] at hk
        rw [← Nat.add_assoc, Nat.add_right_comm] at hfound ⊢
        exact hafter k operand found hk hfound

/-- Cast to the other type and laid out as that, an operand is read as what it
    was. -/
def CastKeeps (cast : Cast) (ty : RustTy) (found : Ty) : Prop :=
  ∀ v, IsOperand ty v → ∀ mem a, normalizeBoolForImmediate cast ty
    ((laidOut (convertTy ty)).codec.read ((laidOut found).codec.write
      (castTo cast (convertImmediateTy ty) found v) mem a) a) = v

/-- The struct an aggregate is built as has, at the position of each field, a
    type that keeps its operands, and at the offset the local has the field at. -/
def CarriesOperands (cast : Cast) (ty : RustTy) : Prop :=
  ∀ index fieldTy, fieldTyOf ty index = some fieldTy → ∃ found,
    aggregateFieldType (aggregateResultTy ty) (convertedFieldIndex ty index) = some found ∧
      CastKeeps cast fieldTy found ∧ (stackSizeOf (convertTy fieldTy) ≠ some 0 →
        memberOffset (aggregateResultTy ty) (convertedFieldIndex ty index) = stackOffsetOf ty index)

/-- The value of a struct-like type with fields, in memory order. -/
structure Built (ty : RustTy) (fields : List RustTy) (order : List Nat) (tys : List Ty) : Prop where
  like : structLike ty = some (fields, order)
  ordered : WellOrdered ty
  result : aggregateResultTy ty = .struct tys
  perm : tys.Perm (fields.map convertTy)

namespace Built

variable {ty : RustTy} {fields : List RustTy} {order : List Nat} {tys : List Ty}
  (built : Built ty fields order tys)
include built

theorem length_eq : tys.length = fields.length := by
  rw [built.perm.length_eq, List.length_map]

theorem order_ty : Ordered ty := built.ordered ty (.refl ty)

theorem part {index : Nat} {fieldTy : RustTy} (h : fieldTyOf ty index = some fieldTy) :
    WellOrdered fieldTy := built.ordered.part (fieldTyOf_component h)

theorem supported_struct : supported (.struct tys) = true := by
  rw [supported, allSupported_iff]
  intro found hfound
  obtain ⟨field, hmem, rfl⟩ := List.mem_map.mp (built.perm.mem_iff.mp hfound)
  obtain ⟨-, -, -, hparts, -, -, -, -⟩ := structLike_cases built.like
  exact supported_convertTy field (built.ordered.part (hparts ▸ hmem))

/-- The type and the offset a field is inserted at. -/
theorem exists_found {index : Nat} {fieldTy : RustTy} (h : fieldTyOf ty index = some fieldTy) :
    ∃ found offset, tys[convertedFieldIndex ty index]? = some found ∧
      memberOffset (.struct tys) (convertedFieldIndex ty index) = some offset := by
  have hlt := convertedFieldIndex_lt built.like built.order_ty h
  rw [← built.length_eq] at hlt
  obtain ⟨offset, hoffset⟩ := exists_memberOffset built.supported_struct hlt
  exact ⟨_, offset, List.getElem?_eq_getElem hlt, hoffset⟩

include hcast in
/-- The local holds the operands, each cast to the type of its position. -/
theorem storeAggregate_spec {operands : List (RustTy × Val)}
    (htys : operands.map Prod.fst = fields)
    (hoperands : ∀ operand ∈ operands, IsOperand operand.1 operand.2) {undef : Val}
    (hundef : Fits (aggregateResultTy ty) undef) (mem : ByteMemory) (slot : Int) :
    ∃ v, storeAggregate cast ty operands undef mem slot =
        some ((laidOut (.struct tys)).codec.write v mem slot) ∧ Fits (.struct tys) v ∧
      ∀ index operand found, operands[index]? = some operand →
        tys[convertedFieldIndex ty index]? = some found →
        extractValue v (convertedFieldIndex ty index) =
          castTo cast (convertImmediateTy operand.1) found operand.2 := by
  rw [built.result] at hundef
  have hdrop : operands.map Prod.fst = fields.drop 0 := htys
  obtain ⟨v, hv, hfits, -, hat⟩ := insertOperands_spec hcast built.like built.order_ty built.result
    built.length_eq hdrop hoperands hundef
  refine ⟨v, ?_, hfits, fun index operand found hoperand hfound => ?_⟩
  · rw [storeAggregate, hv, Option.map_some, built.result]
  · have h := hat index operand found hoperand
    rw [Nat.zero_add] at h
    exact h hfound

end Built

theorem exists_built {ty : RustTy} (hlike : (structLike ty).isSome) (horder : WellOrdered ty) :
    ∃ fields order tys, Built ty fields order tys := by
  obtain ⟨⟨fields, order⟩, hlike⟩ := Option.isSome_iff_exists.mp hlike
  obtain ⟨tys, hresult, hperm⟩ := aggregateResultTy_eq hlike (horder ty (.refl ty))
  exact ⟨fields, order, tys, hlike, horder, hresult, hperm⟩

/-! ## Every field reads back -/

/-- What a field of the local reads as, by value and by address. -/
def ReadsAs (cast : Cast) (ty : RustTy) (path : List Nat) (mem : ByteMemory) (slot : Int)
    (v : Option Val) : Prop :=
  tryLoadFieldProjection cast ty path mem slot = v ∧ loadPlaceAddr cast ty path mem slot = v

/-- The fields of an aggregate stored to a local read back as its operands. -/
def AggregateReadsBack (cast : Cast) (ty : RustTy) : Prop :=
  ∀ (operands : List (RustTy × Val)) undef mem slot,
    operands.map Prod.fst = projectedFields ty →
    (∀ operand ∈ operands, IsOperand operand.1 operand.2) → Fits (aggregateResultTy ty) undef →
    ∃ mem', storeAggregate cast ty operands undef mem slot = some mem' ∧
      ∀ (i : Nat) (operand : RustTy × Val), operands[i]? = some operand →
        ReadsAs cast ty [i] mem' slot (some operand.2)

/-- A field stored to reads back, and those on other paths as before. -/
def FieldReadsBack (cast : Cast) (ty : RustTy) : Prop :=
  ∀ path last fieldTy v mem slot, projectTy ty (path ++ [last]) = some fieldTy →
    IsOperand fieldTy v →
    ∃ mem', storeFieldProjection cast ty path last v mem slot = some mem' ∧
      ReadsAs cast ty (path ++ [last]) mem' slot (some v) ∧
      ∀ path' fieldTy', projectTy ty path' = some fieldTy' → Diverge (path ++ [last]) path' →
        ∀ v', ReadsAs cast ty path' mem slot v' → ReadsAs cast ty path' mem' slot v'

/-- The importer and the back end have each field with a size, however deep, at
    the same offset. -/
def OffsetsAgree (ty : RustTy) : Prop :=
  ∀ path fieldTy, projectTy ty path = some fieldTy → stackSizeOf (convertTy fieldTy) ≠ some 0 →
    pathOffset fieldOffsetOf ty path = pathOffset stackOffsetOf ty path

theorem pathOffset_singleton (offsetOf : RustTy → Nat → Option Nat) {ty fieldTy : RustTy}
    {index : Nat} (h : fieldTyOf ty index = some fieldTy) :
    pathOffset offsetOf ty [index] = offsetOf ty index := by
  rw [pathOffset, h]
  cases offsetOf ty index <;> rfl

theorem wellOrdered_projectTy {ty fieldTy : RustTy} {path : List Nat} (horder : WellOrdered ty)
    (h : projectTy ty path = some fieldTy) : WellOrdered fieldTy := by
  induction path generalizing ty with
  | nil =>
    rw [projectTy, Option.some.injEq] at h
    exact h ▸ horder
  | cons index path ih =>
    rw [projectTy, Option.bind_eq_some_iff] at h
    obtain ⟨f, hf, hpath⟩ := h
    exact ih (horder.part (fieldTyOf_component hf)) hpath

/-- Values without a size are read the same anywhere. -/
theorem read_eq_of_size_zero {ty : RustTy} (horder : WellOrdered ty)
    (h : stackSizeOf (convertTy ty) = some 0) (mem mem' : ByteMemory) (a a' : Int) :
    (laidOut (convertTy ty)).codec.read mem a = (laidOut (convertTy ty)).codec.read mem' a' := by
  rw [stackSizeOf_convertTy horder, Option.some.injEq] at h
  exact MemoryCodec.read_of_size_zero h ((laidOut (convertTy ty)).codec.fits_read mem' a') mem a

/-- Where the offsets agree, a field reads the same by address as by value. -/
theorem OffsetsAgree.loadPlaceAddr_eq {ty fieldTy : RustTy} {path : List Nat} (h : OffsetsAgree ty)
    (horder : WellOrdered ty) (hpath : projectTy ty path = some fieldTy) (cast : Cast)
    (mem : ByteMemory) (slot : Int) :
    loadPlaceAddr cast ty path mem slot = tryLoadFieldProjection cast ty path mem slot := by
  obtain ⟨stack, hstack, -⟩ := path_spec horder hpath
  obtain ⟨offset, hoffset⟩ := exists_pathOffset horder hpath
  rw [Importer.loadPlaceAddr_eq cast hpath hoffset,
    tryLoadFieldProjection_eq cast horder hpath hstack]
  by_cases hzero : stackSizeOf (convertTy fieldTy) = some 0
  · rw [read_eq_of_size_zero (wellOrdered_projectTy horder hpath) hzero mem mem (slot + offset)
      (slot + stack)]
  · have heq := h path fieldTy hpath hzero
    rw [hoffset, hstack, Option.some.injEq] at heq
    rw [heq]

/-- Numbers no larger than others of no larger sum are the same. -/
theorem eq_of_forall₂_le {xs ys : List Nat} (h : List.Forall₂ (· ≤ ·) xs ys)
    (hsum : ys.sum ≤ xs.sum) : xs = ys := by
  induction h with
  | nil => rfl
  | @cons x y xs ys hle hrest ih =>
    have hrestsum := hrest.sum_le_sum
    rw [List.sum_cons, List.sum_cons] at hsum
    rw [show x = y by omega, ih (by omega)]

section

variable {ty : RustTy} {fields : List RustTy} {order : List Nat} {tys : List Ty}
  (built : Built ty fields order tys)
include built

theorem Built.fields_eq : projectedFields ty = fields := by
  obtain ⟨-, -, -, -, hfields, -, -, -⟩ := structLike_cases built.like
  exact hfields

include hcast in
theorem aggregateReadsBack_of_carries (hcarries : CarriesOperands cast ty)
    (hoffsets : OffsetsAgree ty) : AggregateReadsBack cast ty := by
  intro operands undef mem slot htys hoperands hundef
  rw [built.fields_eq] at htys
  obtain ⟨v, hstore, hfits, hat⟩ := built.storeAggregate_spec hcast htys hoperands hundef mem slot
  refine ⟨_, hstore, fun index operand hoperand => ?_⟩
  have hfield : fieldTyOf ty index = some operand.1 := by
    rw [fieldTyOf_eq built.like, ← htys, List.getElem?_map, hoperand, Option.map_some]
  have hpath : projectTy ty [index] = some operand.1 := by
    rw [projectTy, hfield]
    rfl
  suffices hread : tryLoadFieldProjection cast ty [index]
      ((laidOut (.struct tys)).codec.write v mem slot) slot = some operand.2 from
    ⟨hread, (hoffsets.loadPlaceAddr_eq built.ordered hpath cast _ slot).trans hread⟩
  obtain ⟨found, offset, hfound, hoffset⟩ := built.exists_found hfield
  obtain ⟨stack, hstack, -⟩ := field_spec built.ordered hfield
  obtain ⟨found', hfound', hkeeps, hagree⟩ := hcarries index operand.1 hfield
  rw [built.result, aggregateFieldType, hfound, Option.some.injEq] at hfound'
  subst hfound'
  -- At its position is the operand, cast; storing that again changes nothing.
  have hthere : (laidOut found).codec.read ((laidOut (.struct tys)).codec.write v mem slot)
      (slot + offset) = castTo cast (convertImmediateTy operand.1) found operand.2 := by
    rw [← hat index operand found hoperand hfound,
      ← extractValue_read hfound (memberOffset_struct built.supported_struct _ ▸ hoffset),
      (laidOut (.struct tys)).codec.read_write hfits]
  have hback := laidOut_writesBack found ((laidOut (.struct tys)).codec.write v mem slot)
    (slot + offset)
  have hkept := hkeeps operand.2 (hoperands operand (List.mem_of_getElem? hoperand))
    ((laidOut (.struct tys)).codec.write v mem slot) (slot + offset)
  rw [← hthere, hback] at hkept
  rw [tryLoadFieldProjection_eq cast built.ordered hpath
    ((pathOffset_singleton _ hfield).trans hstack), ← hkept]
  by_cases hzero : stackSizeOf (convertTy operand.1) = some 0
  · rw [read_eq_of_size_zero (built.part hfield) hzero _ _ (slot + stack) (slot + offset)]
  · have heq := hagree hzero
    rw [built.result, hoffset, hstack, Option.some.injEq] at heq
    rw [heq]

include hcast in
theorem fieldReadsBack_of_offsets (hoffsets : OffsetsAgree ty) : FieldReadsBack cast ty := by
  intro path last fieldTy v mem slot hpath hv
  obtain ⟨mem', hstore, hread, hother⟩ :=
    storeFieldProjection_spec hcast built.ordered hpath hv mem slot
  refine ⟨mem', hstore, ⟨hread, ?_⟩, fun path' fieldTy' hpath' hdiverge v' hv' => ?_⟩
  · rw [hoffsets.loadPlaceAddr_eq built.ordered hpath, hread]
  · have hsame := (hother path' fieldTy' hpath' hdiverge).trans hv'.1
    exact ⟨hsame, by rw [hoffsets.loadPlaceAddr_eq built.ordered hpath', hsame]⟩

/-- A field read at the importer's offset after each store is where the store
    puts it. -/
theorem offsetsAgree_of_fieldReadsBack (h : FieldReadsBack cast ty) : OffsetsAgree ty := by
  intro path fieldTy hpath hsize
  rcases List.eq_nil_or_concat path with rfl | ⟨path, last, rfl⟩
  · rfl
  rw [List.concat_eq_append] at hpath ⊢
  obtain ⟨stack, hstack, -⟩ := path_spec built.ordered hpath
  obtain ⟨offset, hoffset⟩ := exists_pathOffset built.ordered hpath
  have hbytes := laidOut_bytewise (convertTy fieldTy)
  rw [stackSizeOf_convertTy (wellOrdered_projectTy built.ordered hpath), ne_eq,
    Option.some.injEq] at hsize
  have hstart := zero_mem_places _ hsize
  have hread (v : Val) (hv : IsOperand fieldTy v) : normalizeBoolForImmediate cast fieldTy
      ((laidOut (convertTy fieldTy)).codec.read ((laidOut (convertTy fieldTy)).codec.write
        (normalizeBoolForStorage cast fieldTy v) (fun _ => 0) (0 + stack)) (0 + offset)) = v := by
    obtain ⟨mem', hstore, ⟨-, haddr⟩, -⟩ := h path last fieldTy v (fun _ => 0) 0 hpath hv
    rw [storeFieldProjection_eq cast built.ordered hpath hstack, Option.some.injEq] at hstore
    rw [← hstore, loadPlaceAddr_eq cast hpath hoffset, Option.some.injEq] at haddr
    exact haddr
  have hsub : ∀ i ∈ (laidOut (convertTy fieldTy)).codec.places,
      ∃ j ∈ (laidOut (convertTy fieldTy)).codec.places, offset + i = stack + j := by
    intro i hi
    obtain ⟨v, v', hv, hv', hne⟩ := exists_operands_ne cast hi
    by_contra hout
    have hframe (v : Val) : (laidOut (convertTy fieldTy)).codec.write v (fun _ => 0) (0 + stack)
        (0 + offset + i) = 0 := by
      refine hbytes.write_of_notMem v _ fun j hj heq => hout ⟨j, hj, ?_⟩
      omega
    refine hne _ _ _ (hread v hv) (hread v' hv') ?_
    rw [hframe, hframe]
  rw [hoffset, hstack, (MemoryCodec.eq_of_shifted hsub hbytes.finite (Nat.le_refl _) hstart
    hstart).1]

/-! ## Only then -/

include hcast in
/-- Stores of aggregates that differ in one operand: the memories differ in one
    value only, and the field reads as the operand. -/
theorem exists_run (hbuild : AggregateReadsBack cast ty) {index stack : Nat} {fieldTy : RustTy}
    {found : Ty} (h : fieldTyOf ty index = some fieldTy)
    (hstack : stackOffsetOf ty index = some stack)
    (hfound : tys[convertedFieldIndex ty index]? = some found) :
    ∃ run : Val → Val, ∀ v, IsOperand fieldTy v → Fits (.struct tys) (run v) ∧
      extractValue (run v) (convertedFieldIndex ty index) =
        castTo cast (convertImmediateTy fieldTy) found v ∧
      normalizeBoolForImmediate cast fieldTy ((laidOut (convertTy fieldTy)).codec.read
        ((laidOut (.struct tys)).codec.write (run v) (fun _ => 0) 0) (0 + stack)) = v ∧
      ∀ v', IsOperand fieldTy v' → ∀ other < tys.length, other ≠ convertedFieldIndex ty index →
        extractValue (run v) other = extractValue (run v') other := by
  choose operandOf hoperandOf using exists_operand
  obtain ⟨hlt, hindex⟩ := List.getElem?_eq_some_iff.mp (fieldTyOf_eq built.like index ▸ h)
  have hrun (v : Val) (hv : IsOperand fieldTy v) : ∃ w, Fits (.struct tys) w ∧
      (∀ i operand found,
        ((fields.map fun field => (field, operandOf field)).set index (fieldTy, v))[i]? =
          some operand → tys[convertedFieldIndex ty i]? = some found →
        extractValue w (convertedFieldIndex ty i) =
          castTo cast (convertImmediateTy operand.1) found operand.2) ∧
      normalizeBoolForImmediate cast fieldTy ((laidOut (convertTy fieldTy)).codec.read
        ((laidOut (.struct tys)).codec.write w (fun _ => 0) 0) (0 + stack)) = v := by
    have htys : ((fields.map fun field => (field, operandOf field)).set index (fieldTy, v)).map
        Prod.fst = fields := by
      rw [List.map_set, List.map_map, ← hindex]
      exact (congrArg (List.set · index fields[index]) (List.map_id fields)).trans
        (List.set_getElem_self hlt)
    have hoperands : ∀ operand ∈
        (fields.map fun field => (field, operandOf field)).set index (fieldTy, v),
        IsOperand operand.1 operand.2 := by
      intro operand hmem
      rcases List.mem_or_eq_of_mem_set hmem with hmem | rfl
      · obtain ⟨field, -, rfl⟩ := List.mem_map.mp hmem
        exact hoperandOf field
      · exact hv
    have hundef := (laidOut (aggregateResultTy ty)).codec.fits_read (fun _ => 0) 0
    obtain ⟨w, hstore, hfits, hat⟩ :=
      built.storeAggregate_spec hcast htys hoperands hundef (fun _ => 0) 0
    obtain ⟨mem', hstore', hread⟩ :=
      hbuild _ _ (fun _ => 0) 0 (htys.trans built.fields_eq.symm) hoperands hundef
    rw [hstore, Option.some.injEq] at hstore'
    subst hstore'
    have hvalue := (hread index (fieldTy, v) (List.getElem?_set_self
      (by rw [List.length_map]; exact hlt))).1
    have hpath : projectTy ty [index] = some fieldTy := by
      rw [projectTy, h]
      rfl
    rw [tryLoadFieldProjection_eq cast built.ordered hpath
      ((pathOffset_singleton _ h).trans hstack), Option.some.injEq] at hvalue
    exact ⟨w, hfits, hat, hvalue⟩
  have : Nonempty Val := ⟨.unit⟩
  choose! run hfits hat hread using hrun
  refine ⟨run, fun v hv => ⟨hfits v hv, hat v hv index _ _ (List.getElem?_set_self
    (by rw [List.length_map]; exact hlt)) hfound, hread v hv, fun v' hv' other hother hne => ?_⟩⟩
  rw [built.length_eq] at hother
  obtain ⟨i, field, hi, rfl⟩ := exists_convertedField built.like built.order_ty hother
  have hne' : index ≠ i := fun heq => hne (by rw [heq])
  have hfield : (fields.map fun field => (field, operandOf field))[i]? =
      some (field, operandOf field) := by
    rw [List.getElem?_map, ← fieldTyOf_eq built.like, hi, Option.map_some]
  rw [← built.length_eq] at hother
  have hthere (v : Val) (hv : IsOperand fieldTy v) := hat v hv i (field, operandOf field) _
    (by rw [List.getElem?_set_ne hne', hfield]) (List.getElem?_eq_getElem hother)
  rw [hthere v hv, hthere v' hv']

include hcast in
/-- The bytes of a field are among those its operand is stored to. -/
theorem places_shifted (hbuild : AggregateReadsBack cast ty) {index stack offset : Nat}
    {fieldTy : RustTy} {found : Ty} (h : fieldTyOf ty index = some fieldTy)
    (hstack : stackOffsetOf ty index = some stack)
    (hfound : tys[convertedFieldIndex ty index]? = some found)
    (hoffset : memberOffset (.struct tys) (convertedFieldIndex ty index) = some offset) :
    ∀ i ∈ (laidOut (convertTy fieldTy)).codec.places,
      ∃ j ∈ (laidOut found).codec.places, stack + i = offset + j := by
  intro i hi
  obtain ⟨run, hrun⟩ := exists_run hcast built hbuild h hstack hfound
  obtain ⟨v, v', hv, hv', hne⟩ := exists_operands_ne cast hi
  obtain ⟨hfits, -, hread, hsame⟩ := hrun v hv
  obtain ⟨hfits', -, hread', -⟩ := hrun v' hv'
  by_contra hout
  refine hne _ _ _ hread hread' (write_eq_of_extractValue hfits hfits' hfound
    (memberOffset_struct built.supported_struct _ ▸ hoffset) (hsame v' hv') _ fun j hj heq => ?_)
  exact hout ⟨j, hj, by omega⟩

include hcast in
/-- There are then as many of the ones as of the others. -/
theorem ncard_places_eq (hbuild : AggregateReadsBack cast ty) {index : Nat}
    {fieldTy : RustTy} {found : Ty} (h : fieldTyOf ty index = some fieldTy)
    (hfound : tys[convertedFieldIndex ty index]? = some found) :
    (laidOut (convertTy fieldTy)).codec.places.ncard = (laidOut found).codec.places.ncard := by
  have horder := built.order_ty fields order built.like
  have hat {i : Nat} {field : RustTy} (hi : fieldTyOf ty i = some field) :
      (permute order (fields.map convertTy))[convertedFieldIndex ty i]? = some (convertTy field) := by
    rw [fieldTyOf_eq built.like] at hi
    rw [permute_map, List.getElem?_map, convertedFieldIndex_eq built.like,
      permute_fieldMemoryPosition horder (List.getElem?_eq_some_iff.mp hi).1, hi, Option.map_some]
  have hperm : (permute order (fields.map convertTy)).Perm tys := by
    refine List.Perm.trans ?_ built.perm.symm
    rw [permute_map]
    exact (permute_perm horder).map convertTy
  have hle : List.Forall₂ (· ≤ ·)
      ((permute order (fields.map convertTy)).map fun ty => (laidOut ty).codec.places.ncard)
      (tys.map fun ty => (laidOut ty).codec.places.ncard) := by
    rw [List.forall₂_map_left_iff, List.forall₂_map_right_iff]
    refine List.forall₂_iff_get.mpr ⟨hperm.length_eq, fun position hlt hlt' => ?_⟩
    have hposition := hlt'
    rw [built.length_eq] at hposition
    obtain ⟨i, field, hi, rfl⟩ := exists_convertedField built.like built.order_ty hposition
    obtain ⟨stack, hstack, -⟩ := field_spec built.ordered hi
    obtain ⟨found, offset, hfound, hoffset⟩ := built.exists_found hi
    have hsub := places_shifted hcast built hbuild hi hstack hfound hoffset
    obtain ⟨_, hget⟩ := List.getElem?_eq_some_iff.mp hfound
    obtain ⟨_, hget'⟩ := List.getElem?_eq_some_iff.mp (hat hi)
    rw [List.get_eq_getElem, List.get_eq_getElem, hget, hget']
    exact MemoryCodec.ncard_le_of_shifted hsub (laidOut_bytewise found).finite
  have heq := eq_of_forall₂_le hle (Nat.le_of_eq (hperm.map _).sum_eq.symm)
  have hboth := congrArg (·[convertedFieldIndex ty index]?) heq
  simp only [List.getElem?_map, hat h, hfound, Option.map_some, Option.some.injEq] at hboth
  exact hboth

include hcast in
theorem carriesOperands_of_aggregateReadsBack (hbuild : AggregateReadsBack cast ty) :
    CarriesOperands cast ty := by
  intro index fieldTy h
  obtain ⟨found, offset, hfound, hoffset⟩ := built.exists_found h
  obtain ⟨stack, hstack, -⟩ := field_spec built.ordered h
  have hsub := places_shifted hcast built hbuild h hstack hfound hoffset
  have hcard := ncard_places_eq hcast built hbuild h hfound
  have hbytes := laidOut_bytewise (convertTy fieldTy)
  have hfoundBytes := laidOut_bytewise found
  -- With a size, the field is at the same bytes in both structs.
  have hsame (hsize : (laidOut (convertTy fieldTy)).codec.size ≠ 0) : stack = offset ∧
      (laidOut (convertTy fieldTy)).codec.places = (laidOut found).codec.places := by
    have hstart := zero_mem_places _ hsize
    obtain ⟨j, hj, -⟩ := hsub 0 hstart
    have hfoundSize : (laidOut found).codec.size ≠ 0 := Nat.ne_of_gt
      (Nat.lt_of_le_of_lt (Nat.zero_le j) (hfoundBytes.lt j hj))
    exact MemoryCodec.eq_of_shifted hsub hfoundBytes.finite (Nat.le_of_eq hcard.symm) hstart
      (zero_mem_places _ hfoundSize)
  refine ⟨found, by rw [built.result, aggregateFieldType, hfound], fun v hv mem a => ?_,
    fun hsize => ?_⟩
  · obtain ⟨run, hrun⟩ := exists_run hcast built hbuild h hstack hfound
    obtain ⟨hfits, hextract, hread, -⟩ := hrun v hv
    refine (congrArg (normalizeBoolForImmediate cast fieldTy)
      (hbytes.read_eq_iff.mpr fun i hi => ?_)).trans hread
    have hsize : (laidOut (convertTy fieldTy)).codec.size ≠ 0 := Nat.ne_of_gt
      (Nat.lt_of_le_of_lt (Nat.zero_le i) (hbytes.lt i hi))
    obtain ⟨rfl, hplaces⟩ := hsame hsize
    rw [hplaces] at hi
    have hthere := extractValue_read hfound
      (memberOffset_struct built.supported_struct _ ▸ hoffset)
      ((laidOut (.struct tys)).codec.write (run v) (fun _ => 0) 0) 0
    rw [(laidOut (.struct tys)).codec.read_write hfits, hextract] at hthere
    exact (hfoundBytes.write_eq (fits_castTo hcast (fits_convertImmediateTy hv)) hthere.symm
      hi).symm
  · rw [stackSizeOf_convertTy (built.part h), ne_eq, Option.some.injEq] at hsize
    rw [built.result, hoffset, hstack, (hsame hsize).1]

end

include hcast in
/-- Built as the type of the local, an aggregate carries its operands: structs
    and closures always, tuples in the order of their fields. -/
theorem carriesOperands_of_eq {ty : RustTy} (hlike : (structLike ty).isSome)
    (horder : WellOrdered ty) (h : aggregateResultTy ty = convertTy ty) :
    CarriesOperands cast ty := by
  obtain ⟨fields, order, tys, built⟩ := exists_built hlike horder
  intro index fieldTy hfield
  obtain ⟨tys', hconvert, hfound⟩ := convertedField_eq built.order_ty hfield
  refine ⟨convertTy fieldTy, ?_, fun v hv mem a => ?_, fun _ => by rw [h, stackOffsetOf]⟩
  · rw [h, hconvert, aggregateFieldType, hfound]
  · obtain ⟨hstored, hback⟩ := normalizeBool_spec hcast hv
    rw [castTo_convertTy, (laidOut (convertTy fieldTy)).codec.read_write hstored, hback]

/-- Where the layouts of the fields agree, so do their offsets. -/
theorem fieldOffsetOf_eq_stackOffsetOf {ty fieldTy : RustTy} {index : Nat} (horder : WellOrdered ty)
    (hagrees : ∀ part ∈ ty.parts, Agrees part) (h : fieldTyOf ty index = some fieldTy) :
    fieldOffsetOf ty index = stackOffsetOf ty index := by
  obtain ⟨fields, order, hlike, hfield⟩ := fieldTyOf_eq_some h
  obtain ⟨hconvert, -, -, hparts, -, -, -, hoffset⟩ := structLike_cases hlike
  have hlt := (List.getElem?_eq_some_iff.mp hfield).1
  have hsupported := supported_convertTy ty horder
  rcases hconvert with hconvert | ⟨rfl, -⟩
  · have hlayouts : (permute order (fields.map convertTy)).map (fun ty => (laidOut ty).layout) =
        permute order (fieldLayouts fields) := by
      rw [fieldLayouts_eq, permute_map, permute_map, List.map_map]
      refine List.map_congr_left fun field hmem => ?_
      have hpart : field ∈ ty.parts :=
        hparts ▸ (permute_perm (horder ty (.refl ty) fields order hlike)).mem_iff.mp hmem
      have hlayout := (hagrees field hpart).layout
      have hlaid := hasLayout_laidOut _ (supported_convertTy field (horder.part hpart))
      exact Prod.ext (Option.some.inj (hlaid.1.symm.trans hlayout.1))
        (Option.some.inj (hlaid.2.symm.trans hlayout.2))
    rw [hconvert] at hsupported
    rw [stackOffsetOf, hconvert, memberOffset_struct hsupported, hlayouts, hoffset index hlt,
      convertedFieldIndex_eq hlike]
  · exact absurd hlt (Nat.not_lt_zero index)

/-- It is enough that in no part of the type a member without a size is aligned
    more strictly than those with one. -/
theorem offsetsAgree_of_parts {ty : RustTy} (horder : WellOrdered ty)
    (h : ∀ part ∈ ty.parts, ∀ c, RustTy.Component c part → ZeroSizedUnaligned c) :
    OffsetsAgree ty := by
  intro path fieldTy hpath _
  induction path generalizing ty with
  | nil => rfl
  | cons index path ih =>
    rw [projectTy, Option.bind_eq_some_iff] at hpath
    obtain ⟨f, hf, hrest⟩ := hpath
    have hpart := fieldTyOf_component hf
    have hagrees (part : RustTy) (hp : part ∈ ty.parts) : Agrees part :=
      (agrees_components_iff part (horder.part hp)).mpr (h part hp) part (.refl part)
    have hinner := ih (horder.part hpart) (fun part hp c hc => h f hpart c (.part hc hp)) hrest
    rw [pathOffset, pathOffset, fieldOffsetOf_eq_stackOffsetOf horder hagrees hf, hf]
    simp only [Option.bind_some, hinner]

/-! ## Two tuples -/

def lowestBit : Val → Val
  | .scalar bits => .scalar (bits % 2)
  | v => v

/-- The low bytes stay, with zeros above them; of a boolean, the lowest bit. -/
def bytesCast : Cast := fun source target v =>
  let bytes := (laidOut target).codec.read ((laidOut source).codec.write v (fun _ => 0) 0) 0
  if target = boolImmediate then lowestBit bytes else bytes

theorem bytesCast_documented : DocumentedCast bytesCast where
  fits source target v _ := by
    have hread := (laidOut target).codec.fits_read ((laidOut source).codec.write v (fun _ => 0) 0) 0
    rw [bytesCast]
    split
    case isTrue heq =>
      subst heq
      obtain ⟨bits, hlt, hbits⟩ := hread
      rw [hbits]
      exact ⟨bits % 2, Nat.lt_of_le_of_lt (Nat.mod_le bits 2) hlt, rfl⟩
    case isFalse => exact hread
  widen bits h := by
    have hfits : Fits boolImmediate (.scalar bits) := ⟨bits, Nat.lt_trans h (by decide), rfl⟩
    exact (laidOut boolImmediate).codec.read_write hfits _ _
  narrow bits := by
    show Val.scalar ((bits % 256 + 256 * 0) % 2) = .scalar (bits % 2)
    congr 1
    omega

/-- Types of the same bytes keep each other's values. -/
theorem bytesCast_keeps {ty : RustTy} {found : Ty} (hbool : ¬ isBoolTy ty = true)
    (hfound : found ≠ boolImmediate)
    (hcodec : (laidOut found).codec = (laidOut (convertTy ty)).codec) :
    CastKeeps bytesCast ty found := by
  intro v hv mem a
  rw [IsOperand, if_neg hbool] at hv
  have hv' : (laidOut found).codec.fits v := hcodec ▸ hv
  have hcast : castTo bytesCast (convertImmediateTy ty) found v = v := by
    rw [convertImmediateTy, if_neg hbool, castTo, bytesCast, if_neg hfound]
    split
    case isTrue => rfl
    case isFalse =>
      rw [← hcodec]
      exact (laidOut found).codec.read_write hv' _ _
  rw [normalizeBoolForImmediate, if_neg hbool, hcast, ← hcodec]
  exact (laidOut found).codec.read_write hv' mem a

/-- Tuples of numbers and pointers are of no other aggregates. -/
theorem wellOrdered_tuple {fields : List RustTy} {order : List Nat}
    (horder : order.Perm (List.range fields.length))
    (hfields : ∀ field ∈ fields, field.parts = [] ∧ structLike field = none) :
    WellOrdered (.tuple fields order) := by
  intro part h
  cases h with
  | refl =>
    intro fields' order' hlike
    cases hlike
    exact horder
  | part h hfield =>
    obtain ⟨hparts, hlike⟩ := hfields _ hfield
    cases h with
    | refl => exact fun _ _ hsome => (by rw [hlike] at hsome; cases hsome)
    | part _ hpart =>
      rw [hparts] at hpart
      exact absurd hpart List.not_mem_nil

/-- `(u64, &T)`, the reference first in memory. -/
def wordThenRef : RustTy := .tuple [.uint .u64, .ref none] [1, 0]

theorem wellOrdered_wordThenRef : WellOrdered wordThenRef :=
  wellOrdered_tuple (.swap 0 1 []) (by simp [RustTy.parts, structLike])

/-- Its two fields. -/
theorem fieldTyOf_wordThenRef {index : Nat} {fieldTy : RustTy}
    (h : fieldTyOf wordThenRef index = some fieldTy) :
    index = 0 ∧ fieldTy = .uint .u64 ∨ index = 1 ∧ fieldTy = .ref none := by
  rcases index with _ | _ | index
  · exact Or.inl ⟨rfl, (Option.some.inj h).symm⟩
  · exact Or.inr ⟨rfl, (Option.some.inj h).symm⟩
  · cases h

theorem carriesOperands_wordThenRef : CarriesOperands bytesCast wordThenRef := by
  intro index fieldTy h
  rcases fieldTyOf_wordThenRef h with ⟨rfl, rfl⟩ | ⟨rfl, rfl⟩
  · exact ⟨.pointer, rfl, bytesCast_keeps Bool.false_ne_true (by decide) rfl, fun _ => rfl⟩
  · exact ⟨.int 64 .unsigned, rfl, bytesCast_keeps Bool.false_ne_true (by decide) rfl,
      fun _ => rfl⟩

theorem offsetsAgree_wordThenRef : OffsetsAgree wordThenRef := by
  refine offsetsAgree_of_parts wellOrdered_wordThenRef fun part hpart c hc => ?_
  -- The fields are made of nothing else.
  have hparts : part.parts = [] ∧ ZeroSizedUnaligned part := by
    rcases List.mem_cons.mp hpart with rfl | hpart
    · exact ⟨rfl, fun _ _ hlike => (by cases hlike)⟩
    · rw [List.mem_singleton.mp hpart]
      exact ⟨rfl, fun _ _ hlike => (by cases hlike)⟩
  cases hc with
  | refl => exact hparts.2
  | part _ hmem => exact absurd (hparts.1 ▸ hmem) List.not_mem_nil

/-- `(u8, u64, u8)`, the word first in memory. -/
def byteWordByte : RustTy := .tuple [.uint .u8, .uint .u64, .uint .u8] [1, 0, 2]

theorem wellOrdered_byteWordByte : WellOrdered byteWordByte :=
  wellOrdered_tuple (.swap 0 1 [2]) (by simp [RustTy.parts, structLike])

/-- The local once `(1, 256, 2)` is stored to it: the word is cut to a byte, the
    first byte widened to a word. -/
def byteWordByteStored : ByteMemory :=
  (laidOut (aggregateResultTy byteWordByte)).codec.write
    (.aggregate [.scalar 0, .scalar 1, .scalar 2]) (fun _ => 0) 0

end Crabbit.Importer
