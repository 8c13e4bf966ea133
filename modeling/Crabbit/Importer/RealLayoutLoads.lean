/-
  Crabbit.Importer.RealLayoutLoads

  Values loaded at rustc's offsets (`load_value_from_real_layout`), against
  values the back end reads.  The loader of a type loads some parts of it at
  once and inserts them; what it makes of them is the value in the back end's
  layout exactly when each part with a size has the same offset in both.
-/

import Crabbit.Importer.CallReturn
import Crabbit.Importer.FieldsReadBack

namespace Crabbit.Importer

open Crabbit.Lib (ByteMemory MemoryCodec Val)
open Crabbit.Llvm (Ty)

/-! ## The parts of a value -/

/-- A part of a value that is loaded at once: its offsets in rustc's layout and
    in that of the back end, and the type it is loaded as. -/
structure LoadedPart where
  rustc : Nat
  stack : Nat
  ty : Ty

namespace LoadedPart

/-- The part of a value that is itself at these offsets. -/
def within (part : LoadedPart) (rustc stack : Nat) : LoadedPart :=
  ⟨rustc + part.rustc, stack + part.stack, part.ty⟩

def size (part : LoadedPart) : Nat := (laidOut part.ty).codec.size

/-- The part of a value at `a`, as rustc has it, is that of one at `a'`. -/
def SameIn (part : LoadedPart) (mem mem' : ByteMemory) (a a' : Int) : Prop :=
  (laidOut part.ty).codec.read mem (a + part.rustc) =
    (laidOut part.ty).codec.read mem' (a' + part.stack)

theorem within_sameIn {part : LoadedPart} {rustc stack : Nat} {mem mem' : ByteMemory}
    {a a' : Int} : (part.within rustc stack).SameIn mem mem' a a' ↔
      part.SameIn mem mem' (a + rustc) (a' + stack) := by
  rw [SameIn, SameIn, within, Nat.cast_add, Nat.cast_add, Int.add_assoc, Int.add_assoc]

end LoadedPart

/-- The distance of the elements of an array in the back end's layout. -/
def stackStride (elem : RustTy) : Nat :=
  alignTo (laidOut (convertTy elem)).codec.size (laidOut (convertTy elem)).align

mutual

/-- What `loadValueFromRealLayout` loads. -/
def loadedParts : RustTy → List LoadedPart
  | .tuple fields order => loadedFields (rustcFieldOffset (.tuple fields order))
      (stackOffsetOf (.tuple fields order)) fields 0
  | .closure fields order => loadedFields (rustcFieldOffset (.closure fields order))
      (stackOffsetOf (.closure fields order)) fields 0
  | .struct fields order repr => loadedFields (rustcFieldOffset (.struct fields order repr))
      (stackOffsetOf (.struct fields order repr)) fields 0
  | .fmtArguments => [⟨0, 0, .pointer⟩, ⟨8, 8, .pointer⟩]
  | .array elem len => (List.range len).flatMap fun index =>
      (loadedParts elem).map fun part =>
        part.within (index * rustcSize elem) (index * stackStride elem)
  | .fnDef | .never | .str | .dynamic | .slice _ => []
  | ty => [⟨0, 0, convertTy ty⟩]

/-- The fields from `index` on; those without a size are not loaded. -/
def loadedFields (rustcOf stackOf : Nat → Option Nat) : List RustTy → Nat → List LoadedPart
  | [], _ => []
  | field :: fields, index =>
      if layoutSizeOfTy field = 0 then loadedFields rustcOf stackOf fields (index + 1)
      else (loadedParts field).map (fun part =>
          part.within ((rustcOf index).getD 0) ((stackOf index).getD 0)) ++
        loadedFields rustcOf stackOf fields (index + 1)

end

theorem mem_loadedFields {rustcOf stackOf : Nat → Option Nat} {fields : List RustTy} {index : Nat}
    {part : LoadedPart} : part ∈ loadedFields rustcOf stackOf fields index ↔
      ∃ k field, fields[k]? = some field ∧ layoutSizeOfTy field ≠ 0 ∧ ∃ inner ∈ loadedParts field,
        inner.within ((rustcOf (index + k)).getD 0) ((stackOf (index + k)).getD 0) = part := by
  induction fields generalizing index with
  | nil => simp [loadedFields]
  | cons field fields ih =>
    -- The field is the first one, or one of the others.
    have hsplit (P : Nat → RustTy → Prop) : (∃ k f, (field :: fields)[k]? = some f ∧ P k f) ↔
        P 0 field ∨ ∃ k f, fields[k]? = some f ∧ P (k + 1) f := by
      constructor
      · rintro ⟨k, f, hf, hP⟩
        cases k with
        | zero => exact Or.inl (Option.some.inj hf ▸ hP)
        | succ k => exact Or.inr ⟨k, f, hf, hP⟩
      · rintro (hP | ⟨k, f, hf, hP⟩)
        · exact ⟨0, field, rfl, hP⟩
        · exact ⟨k + 1, f, hf, hP⟩
    rw [hsplit, loadedFields]
    simp only [Nat.add_zero, ← Nat.add_assoc, Nat.add_right_comm index _ 1]
    by_cases hzero : layoutSizeOfTy field = 0
    · rw [if_pos hzero, ih]
      exact (or_iff_right fun h => h.1 hzero).symm
    · rw [if_neg hzero, List.mem_append, List.mem_map, ih]
      exact or_congr_left (and_iff_right hzero).symm

/-! ## Types without a size -/

theorem sizeInBytes_struct_eq_zero {tys : List Ty}
    (h : ∀ ty ∈ tys, (laidOut ty).codec.size = 0) : (laidOut (.struct tys)).codec.size = 0 := by
  refine alignTo_eq_zero.mpr ((structLikeEnd_eq_self _ 0).mpr ?_)
  rw [laidOuts_eq, List.map_map, List.forall_mem_map]
  exact h

/-- What has no size for the importer has none in the back end. -/
theorem sizeInBytes_eq_zero (ty : RustTy) (horder : WellOrdered ty) (h : layoutSizeOfTy ty = 0) :
    sizeInBytes ty = 0 := by
  induction ty using RustTy.parts_induction with
  | h ty ih =>
    replace ih : ∀ part ∈ ty.parts, layoutSizeOfTy part = 0 → sizeInBytes part = 0 :=
      fun part hpart => ih part hpart (horder.part hpart)
    cases hlike : structLike ty with
    | some p =>
      obtain ⟨fields, order⟩ := p
      obtain ⟨hconvert, hsize, -, hparts, -⟩ := structLike_cases hlike
      have hperm := horder ty (.refl ty) fields order hlike
      rcases hconvert with hconvert | ⟨-, hconvert⟩
      · rw [hsize, structLikeSize_eq_zero, fieldLayouts_eq, permute_map, List.forall_mem_map] at h
        rw [sizeInBytes, hconvert]
        refine sizeInBytes_struct_eq_zero ?_
        rw [permute_map, List.forall_mem_map]
        exact fun field hmem =>
          ih field (hparts ▸ (permute_perm hperm).mem_iff.mp hmem) (h field hmem)
      · rw [sizeInBytes, hconvert]
        rfl
    | none =>
      cases ty with
      | tuple => cases hlike
      | struct => cases hlike
      | closure => cases hlike
      | slice elem => exact Nat.mul_zero _
      | array elem len =>
        rw [layoutSizeOfTy, Nat.mul_eq_zero, alignTo_eq_zero] at h
        refine Nat.mul_eq_zero.mpr (h.imp_left fun helem => ?_)
        exact alignTo_eq_zero.mpr (ih elem (List.mem_singleton.mpr rfl) helem)
      | union fields repr =>
        rw [layoutSizeOfTy] at h
        rw [sizeInBytes, convertTy, if_pos h]
        exact sizeInBytes_struct_eq_zero (List.forall_mem_singleton.mpr rfl)
      | enum layout =>
        rw [layoutSizeOfTy] at h
        rw [sizeInBytes, convertTy, enumBlobTy, if_pos h]
        rfl
      | int kind => exact absurd h (by cases kind <;> decide)
      | uint kind => exact absurd h (by cases kind <;> decide)
      | ref tail => exact absurd h (by cases tail <;> simp [layoutSizeOfTy])
      | fnDef | never | str | dynamic => rfl
      | _ => exact absurd h (by decide)

/-! ## Fields -/

/-- Each field with a size is loaded at its offset and inserted at its
    position; everything else stays. -/
theorem loadFields_spec {offsetOf : Nat → Option Nat} {position : Nat → Nat} {fields : List RustTy}
    {index : Nat} {loader : FieldLoader}
    (h : loadFields offsetOf position fields index = some loader)
    (hinj : ∀ j < fields.length, ∀ k < fields.length,
      position (index + j) = position (index + k) → j = k)
    (undef : Ty → Val) (mem : ByteMemory) (a : Int) (vs : List Val) :
    ∃ vs', loader undef mem a (.aggregate vs) = .aggregate vs' ∧ vs'.length = vs.length ∧
      (∀ p, (∀ k < fields.length, position (index + k) ≠ p) → vs'[p]? = vs[p]?) ∧
      ∀ k field, fields[k]? = some field → position (index + k) < vs.length →
        (layoutSizeOfTy field = 0 → vs'[position (index + k)]? = vs[position (index + k)]?) ∧
        (layoutSizeOfTy field ≠ 0 → ∃ offset fieldLoader, offsetOf (index + k) = some offset ∧
          loadValueFromRealLayout field = some fieldLoader ∧
          vs'[position (index + k)]? = some (fieldLoader undef mem (a + offset))) := by
  induction fields generalizing index loader vs with
  | nil =>
    cases h
    exact ⟨vs, rfl, rfl, fun _ _ => rfl, fun _ _ hk => absurd hk (by simp)⟩
  | cons field fields ih =>
    have hinj' : ∀ j < fields.length, ∀ k < fields.length,
        position (index + 1 + j) = position (index + 1 + k) → j = k := by
      intro j hj k hk heq
      rw [Nat.add_assoc, Nat.add_comm 1, Nat.add_assoc, Nat.add_comm 1] at heq
      exact Nat.succ.inj (hinj _ (Nat.succ_lt_succ hj) _ (Nat.succ_lt_succ hk) heq)
    -- No field behind is inserted where this one is.
    have hfirst : ∀ k < fields.length, position (index + 1 + k) ≠ position index := by
      intro k hk heq
      rw [Nat.add_assoc, Nat.add_comm 1] at heq
      exact absurd (hinj _ (Nat.succ_lt_succ hk) 0 (Nat.succ_pos _) heq) (Nat.succ_ne_zero k)
    have hshift (k : Nat) : index + 1 + k = index + (k + 1) := by omega
    rw [loadFields] at h
    by_cases hzero : layoutSizeOfTy field = 0
    · rw [if_pos hzero] at h
      obtain ⟨vs', hload, hlength, hframe, hfields⟩ := ih h hinj' vs
      refine ⟨vs', hload, hlength, fun p hp => hframe p fun k hk => ?_, fun k f hf hlt => ?_⟩
      · rw [hshift]
        exact hp (k + 1) (Nat.succ_lt_succ hk)
      · cases k with
        | zero =>
          cases hf
          exact ⟨fun _ => hframe _ hfirst, fun hne => absurd hzero hne⟩
        | succ k =>
          rw [← hshift] at hlt ⊢
          exact hfields k f hf hlt
    · rw [if_neg hzero] at h
      obtain ⟨offset, hoffset, h⟩ := Option.bind_eq_some_iff.mp h
      obtain ⟨fieldLoader, hfield, h⟩ := Option.bind_eq_some_iff.mp h
      obtain ⟨rest, hrest, rfl⟩ := Option.map_eq_some_iff.mp h
      obtain ⟨vs', hload, hlength, hframe, hfields⟩ :=
        ih hrest hinj' (vs.set (position index) (fieldLoader undef mem (a + offset)))
      rw [List.length_set] at hlength hfields
      refine ⟨vs', hload, hlength, fun p hp => ?_, fun k f hf hlt => ?_⟩
      · rw [hframe p fun k hk => hshift k ▸ hp (k + 1) (Nat.succ_lt_succ hk)]
        exact List.getElem?_set_ne (hp 0 (Nat.succ_pos _))
      · cases k with
        | zero =>
          cases hf
          refine ⟨fun heq => absurd heq hzero, fun _ => ⟨offset, fieldLoader, hoffset, hfield, ?_⟩⟩
          exact (hframe _ hfirst).trans (List.getElem?_set_self hlt)
        | succ k =>
          rw [List.getElem?_cons_succ] at hf
          rw [← hshift] at hlt ⊢
          obtain ⟨hkept, hloaded⟩ := hfields k f hf hlt
          refine ⟨fun heq => (hkept heq).trans (List.getElem?_set_ne ?_), hloaded⟩
          exact (hfirst k (List.getElem?_eq_some_iff.mp hf).1).symm

/-- Values of a struct-like type are the same when their fields are. -/
theorem aggregate_ext {ty : RustTy} {fields : List RustTy} {order : List Nat}
    (hlike : structLike ty = some (fields, order)) (horder : Ordered ty) {vs ws : List Val}
    (hvs : vs.length = fields.length) (hws : ws.length = fields.length) :
    Val.aggregate vs = .aggregate ws ↔ ∀ index fieldTy, fieldTyOf ty index = some fieldTy →
      extractValue (.aggregate vs) (convertedFieldIndex ty index) =
        extractValue (.aggregate ws) (convertedFieldIndex ty index) := by
  refine ⟨fun h _ _ _ => by rw [h], fun h => congrArg Val.aggregate ?_⟩
  refine List.ext_getElem (hvs.trans hws.symm) fun position hlt hlt' => ?_
  obtain ⟨index, fieldTy, hfield, rfl⟩ := exists_convertedField hlike horder (hvs ▸ hlt)
  have heq := h index fieldTy hfield
  rw [extractValue_aggregate (List.getElem?_eq_getElem hlt),
    extractValue_aggregate (List.getElem?_eq_getElem hlt')] at heq
  exact heq

/-- Undefined values of all types. -/
abbrev FitsAll (undef : Ty → Val) : Prop := ∀ ty, Fits ty (undef ty)

/-- The value loaded is the one read when the parts loaded are. -/
def LoadsParts (ty : RustTy) : Prop :=
  ∀ loader, loadValueFromRealLayout ty = some loader → ∀ undef, FitsAll undef →
    ∀ (mem mem' : ByteMemory) (a a' : Int),
      loader undef mem a = (laidOut (convertTy ty)).codec.read mem' a' ↔
        ∀ part ∈ loadedParts ty, part.SameIn mem mem' a a'

/-- Values of no bytes are all the same. -/
theorem eq_of_sizeInBytes_eq_zero {ty : RustTy} (h : sizeInBytes ty = 0) {v w : Val}
    (hv : Fits (convertTy ty) v) (hw : Fits (convertTy ty) w) : v = w :=
  (MemoryCodec.read_of_size_zero h hv zeros 0).symm.trans
    (MemoryCodec.read_of_size_zero h hw zeros 0)

/-- A field that is loaded is the one read when its parts are; without a size it
    is the same anyway. -/
theorem field_eq_read_iff {ty field : RustTy} {index : Nat} (horder : WellOrdered ty)
    (hfield : fieldTyOf ty index = some field) (hparts : LoadsParts field) {undef : Ty → Val}
    (hundef : FitsAll undef) {v : Val} (hfits : layoutSizeOfTy field = 0 → Fits (convertTy field) v)
    {mem mem' : ByteMemory} {a a' : Int} (hloaded : layoutSizeOfTy field ≠ 0 →
      ∃ offset loader, rustcFieldOffset ty index = some offset ∧
        loadValueFromRealLayout field = some loader ∧ v = loader undef mem (a + offset)) :
    v = extractValue ((laidOut (convertTy ty)).codec.read mem' a') (convertedFieldIndex ty index) ↔
      (layoutSizeOfTy field ≠ 0 → ∀ inner ∈ loadedParts field,
        (inner.within ((rustcFieldOffset ty index).getD 0)
          ((stackOffsetOf ty index).getD 0)).SameIn mem mem' a a') := by
  obtain ⟨stack, hstack, hspec⟩ := field_spec horder hfield
  rw [(hspec mem' a').1]
  by_cases hzero : layoutSizeOfTy field = 0
  · refine iff_of_true ?_ fun hne => absurd hzero hne
    have hsize := sizeInBytes_eq_zero field (horder.part (fieldTyOf_component hfield)) hzero
    exact eq_of_sizeInBytes_eq_zero hsize (hfits hzero)
      ((laidOut (convertTy field)).codec.fits_read _ _)
  · obtain ⟨offset, loader, hoffset, hloader, rfl⟩ := hloaded hzero
    rw [hoffset, hstack, hparts loader hloader undef hundef]
    exact ⟨fun hall _ inner hinner => LoadedPart.within_sameIn.mpr (hall inner hinner),
      fun hall inner hinner => LoadedPart.within_sameIn.mp (hall hzero inner hinner)⟩

theorem fieldBased_eq_read_iff {ty : RustTy} {fields : List RustTy} {order : List Nat}
    (hlike : structLike ty = some (fields, order)) (horder : WellOrdered ty)
    (hparts : ∀ field ∈ fields, LoadsParts field) {loader : FieldLoader}
    (h : loadFields (rustcFieldOffset ty) (convertedFieldIndex ty) fields 0 = some loader)
    {undef : Ty → Val} (hundef : FitsAll undef) (mem mem' : ByteMemory) (a a' : Int) :
    fieldBased ty loader undef mem a = (laidOut (convertTy ty)).codec.read mem' a' ↔
      ∀ part ∈ loadedFields (rustcFieldOffset ty) (stackOffsetOf ty) fields 0,
        part.SameIn mem mem' a a' := by
  have hself := horder ty (.refl ty)
  have hfieldTy {index : Nat} {field : RustTy} : fieldTyOf ty index = some field ↔
      fields[index]? = some field := by rw [fieldTyOf_eq hlike]
  obtain ⟨hconvert, -⟩ := structLike_cases hlike
  rcases hconvert with hconvert | ⟨rfl, hconvert⟩
  · -- Both sides are structs of the fields.
    have hlength : (permute order (fields.map convertTy)).length = fields.length := by
      rw [permute_map, List.length_map]
      exact (permute_perm (hself fields order hlike)).length_eq
    have hundef' : Fits (.struct (permute order (fields.map convertTy))) (undef (convertTy ty)) :=
      hconvert ▸ hundef _
    have hread : Fits (.struct (permute order (fields.map convertTy)))
        ((laidOut (convertTy ty)).codec.read mem' a') :=
      hconvert ▸ (laidOut (convertTy ty)).codec.fits_read mem' a'
    obtain ⟨vs, hvs, hvsFits⟩ := fits_struct_iff.mp hundef'
    obtain ⟨ws, hws, hwsFits⟩ := fits_struct_iff.mp hread
    have hvsLength : vs.length = fields.length := hvsFits.length_eq.symm.trans hlength
    have hwsLength : ws.length = fields.length := hwsFits.length_eq.symm.trans hlength
    have hinj : ∀ j < fields.length, ∀ k < fields.length,
        convertedFieldIndex ty (0 + j) = convertedFieldIndex ty (0 + k) → j = k := by
      intro j hj k hk heq
      rw [Nat.zero_add, Nat.zero_add] at heq
      exact convertedFieldIndex_inj hself (hfieldTy.mpr (List.getElem?_eq_getElem hj))
        (hfieldTy.mpr (List.getElem?_eq_getElem hk)) heq
    obtain ⟨vs', hload, hvsLength', -, hfields⟩ := loadFields_spec h hinj undef mem a vs
    have hfield : ∀ index field, fieldTyOf ty index = some field →
        (extractValue (.aggregate vs') (convertedFieldIndex ty index) =
          extractValue (.aggregate ws) (convertedFieldIndex ty index) ↔
        (layoutSizeOfTy field ≠ 0 → ∀ inner ∈ loadedParts field,
          (inner.within ((rustcFieldOffset ty index).getD 0)
            ((stackOffsetOf ty index).getD 0)).SameIn mem mem' a a')) := by
      intro index field hfield
      have hat := hfieldTy.mp hfield
      have hlt : convertedFieldIndex ty (0 + index) < vs.length := by
        rw [Nat.zero_add, hvsLength]
        exact convertedFieldIndex_lt hlike hself hfield
      obtain ⟨hkept, hloaded⟩ := hfields index field hat hlt
      rw [Nat.zero_add] at hlt hkept hloaded
      rw [← hws]
      refine field_eq_read_iff horder hfield (hparts field (List.mem_of_getElem? hat)) hundef
        (fun hzero => ?_) fun hne => ?_
      · obtain ⟨tys, htys, hty⟩ := convertedField_eq hself hfield
        obtain ⟨v, hv, hfit⟩ := fits_extractValue (hundef (.struct tys)) hty
        rw [← htys, hvs, extractValue_aggregate (List.getElem?_eq_getElem hlt)] at hv
        rw [extractValue_aggregate ((hkept hzero).trans (List.getElem?_eq_getElem hlt)), hv]
        exact hfit
      · obtain ⟨offset, fieldLoader, hoffset, hfieldLoader, hvalue⟩ := hloaded hne
        exact ⟨offset, fieldLoader, hoffset, hfieldLoader, extractValue_aggregate hvalue⟩
    rw [fieldBased, hvs, hws, hload, aggregate_ext hlike hself (hvsLength'.trans hvsLength) hwsLength]
    constructor
    · intro hall part hpart
      obtain ⟨index, field, hindex, hne, inner, hinner, rfl⟩ := mem_loadedFields.mp hpart
      rw [Nat.zero_add]
      have hfound := hfieldTy.mpr hindex
      exact (hfield index field hfound).mp (hall index field hfound) hne inner hinner
    · intro hall index field hfound
      refine (hfield index field hfound).mpr fun hne inner hinner => hall _ ?_
      refine mem_loadedFields.mpr ⟨index, field, hfieldTy.mp hfound, hne, inner, hinner, ?_⟩
      rw [Nat.zero_add]
  · -- The empty tuple.
    cases h
    refine iff_of_true ?_ fun part hpart => absurd hpart List.not_mem_nil
    have hzero : sizeInBytes ty = 0 := by
      rw [sizeInBytes, hconvert]
      rfl
    exact eq_of_sizeInBytes_eq_zero hzero (hundef _)
      ((laidOut (convertTy ty)).codec.fits_read _ _)

/-! ## Elements -/

/-- Inserting at all indices leaves nothing of what was there. -/
theorem foldl_insertValue (f : Nat → Val) {len : Nat} {vs : List Val} (h : vs.length = len) :
    (List.range len).foldl (fun current index => insertValue current (f index) index)
      (.aggregate vs) = .aggregate ((List.range len).map f) := by
  have hbegin : ∀ k ≤ len,
      (List.range k).foldl (fun current index => insertValue current (f index) index)
        (.aggregate vs) = .aggregate ((List.range k).map f ++ vs.drop k) := by
    intro k hk
    induction k with
    | zero => rfl
    | succ k ih =>
      have hlt : k < vs.length := h.symm ▸ hk
      have hset : ((List.range k).map f ++ vs.drop k).set k (f k) =
          (List.range k).map f ++ f k :: vs.drop (k + 1) := by
        have hlength : ((List.range k).map f).length = k := by
          rw [List.length_map, List.length_range]
        rw [List.set_append_right _ _ (Nat.le_of_eq hlength), hlength, Nat.sub_self,
          List.drop_eq_getElem_cons hlt, List.set_cons_zero]
      rw [List.range_succ, List.foldl_append, ih (Nat.le_of_succ_le hk), List.foldl_cons,
        List.foldl_nil, insertValue, hset, List.map_append, List.append_assoc]
      rfl
  rw [hbegin len (Nat.le_refl len), List.drop_eq_nil_of_le (Nat.le_of_eq h), List.append_nil]

theorem loadElements_eq_read_iff {elem : RustTy} (helem : LoadsParts elem) {loader : Loader}
    (h : loadValueFromRealLayout elem = some loader) (len : Nat) {undef : Ty → Val}
    (hundef : FitsAll undef) (mem mem' : ByteMemory) (a a' : Int) :
    loadElements (.array elem len) loader len (rustcSize elem) undef mem a =
        (laidOut (convertTy (.array elem len))).codec.read mem' a' ↔
      ∀ part ∈ loadedParts (.array elem len), part.SameIn mem mem' a a' := by
  obtain ⟨vs, hvs, hfits⟩ := hundef (convertTy (.array elem len))
  have hlength : vs.length = len := by
    rw [← hfits.length_eq, elementParts, List.length_map, List.length_range]
  have hread : (laidOut (convertTy (.array elem len))).codec.read mem' a' =
      .aggregate ((List.range len).map fun index =>
        (laidOut (convertTy elem)).codec.read mem' (a' + (index * stackStride elem : Nat))) := by
    show Val.aggregate (MemoryCodec.readParts (elementParts _ len) mem' a') = _
    rw [MemoryCodec.readParts, elementParts, List.map_map]
    rfl
  have hindex : ∀ index, loader undef mem (a + (index * rustcSize elem : Nat)) =
      (laidOut (convertTy elem)).codec.read mem' (a' + (index * stackStride elem : Nat)) ↔
        ∀ inner ∈ loadedParts elem, (inner.within (index * rustcSize elem)
          (index * stackStride elem)).SameIn mem mem' a a' := by
    intro index
    simp only [helem loader h undef hundef, LoadedPart.within_sameIn]
  rw [loadElements, hvs, foldl_insertValue _ hlength, hread, Val.aggregate.injEq,
    List.map_inj_left]
  simp only [hindex, loadedParts, List.mem_flatMap, List.mem_map]
  constructor
  · rintro hall _ ⟨index, hmem, inner, hinner, rfl⟩
    exact hall index hmem inner hinner
  · exact fun hall index hmem inner hinner => hall _ ⟨index, hmem, inner, hinner, rfl⟩

/-! ## All types -/

/-- A type loaded at once is its own part. -/
theorem loadDirect_eq_read_iff (ty : RustTy) (undef : Ty → Val) (mem mem' : ByteMemory)
    (a a' : Int) : loadDirect ty undef mem a = (laidOut (convertTy ty)).codec.read mem' a' ↔
      ∀ part ∈ [LoadedPart.mk 0 0 (convertTy ty)], part.SameIn mem mem' a a' := by
  rw [List.forall_mem_singleton, LoadedPart.SameIn, Int.natCast_zero, Int.add_zero, Int.add_zero]
  rfl

theorem loadFmtArguments_eq_read_iff {undef : Ty → Val} (hundef : FitsAll undef)
    (mem mem' : ByteMemory) (a a' : Int) :
    loadFmtArguments undef mem a = (laidOut (convertTy .fmtArguments)).codec.read mem' a' ↔
      ∀ part ∈ loadedParts .fmtArguments, part.SameIn mem mem' a a' := by
  obtain ⟨vs, hvs, hfits⟩ := fits_struct_iff.mp (hundef (convertTy .fmtArguments))
  obtain ⟨v, w, rfl⟩ := List.length_eq_two.mp hfits.length_eq.symm
  have hread : (laidOut (convertTy .fmtArguments)).codec.read mem' a' =
      .aggregate [(laidOut .pointer).codec.read mem' (a' + 0),
        (laidOut .pointer).codec.read mem' (a' + 8)] := rfl
  rw [loadFmtArguments, hvs, hread, loadedParts, List.forall_mem_cons, List.forall_mem_singleton,
    LoadedPart.SameIn, LoadedPart.SameIn, Int.natCast_zero, Int.add_zero, Int.add_zero]
  show Val.aggregate [_, _] = .aggregate [_, _] ↔ _
  rw [Val.aggregate.injEq, List.cons.injEq, List.cons.injEq, and_iff_left rfl]
  rfl

theorem loadsParts (ty : RustTy) (horder : WellOrdered ty) : LoadsParts ty := by
  induction ty using RustTy.parts_induction with
  | h ty ih =>
    replace ih : ∀ part ∈ ty.parts, LoadsParts part :=
      fun part hpart => ih part hpart (horder.part hpart)
    intro loader h undef hundef mem mem' a a'
    cases ty with
    | tuple fields order =>
      obtain ⟨fieldLoader, hfields, rfl⟩ := Option.map_eq_some_iff.mp h
      exact fieldBased_eq_read_iff rfl horder ih hfields hundef mem mem' a a'
    | closure fields order =>
      obtain ⟨fieldLoader, hfields, rfl⟩ := Option.map_eq_some_iff.mp h
      exact fieldBased_eq_read_iff rfl horder ih hfields hundef mem mem' a a'
    | struct fields order repr =>
      obtain ⟨fieldLoader, hfields, rfl⟩ := Option.map_eq_some_iff.mp h
      exact fieldBased_eq_read_iff rfl horder ih hfields hundef mem mem' a a'
    | fmtArguments =>
      cases h
      exact loadFmtArguments_eq_read_iff hundef mem mem' a a'
    | array elem len =>
      rw [loadValueFromRealLayout] at h
      split at h
      case isTrue hlen =>
        cases h
        subst hlen
        exact iff_of_true (eq_of_sizeInBytes_eq_zero (Nat.mul_zero _) (hundef _)
          ((laidOut (convertTy (.array elem 0))).codec.fits_read _ _)) fun _ hpart =>
            absurd hpart List.not_mem_nil
      case isFalse =>
        obtain ⟨elemLoader, helem, rfl⟩ := Option.map_eq_some_iff.mp h
        exact loadElements_eq_read_iff (ih elem (List.mem_singleton.mpr rfl)) helem len hundef mem
          mem' a a'
    | fnDef | never | str | dynamic | slice => cases h
    | _ =>
      cases h
      exact loadDirect_eq_read_iff _ undef mem mem' a a'

/-! ## Types without padding -/

/-- Every byte of a value of the type makes a difference. -/
def NoPadding (ty : Ty) : Prop :=
  (laidOut ty).codec.places = Set.Iio (laidOut ty).codec.size

theorem noPadding_scalar {ty : Ty} {n : Nat} (h : laidOut ty = scalarLaid n) : NoPadding ty := by
  rw [NoPadding, h]
  exact (MemoryCodec.scalar_inBytes n).places_eq

/-- Elements one right after the other. -/
theorem noPadding_array {elem : Ty} (h : NoPadding elem)
    (hstride : alignTo (laidOut elem).codec.size (laidOut elem).align = (laidOut elem).codec.size)
    (len : Nat) : NoPadding (.array elem len) := by
  have hsize : (laidOut (.array elem len)).codec.size = (laidOut elem).codec.size * len :=
    congrArg (· * len) hstride
  rw [NoPadding, hsize, laidOut, (arrayLaid_inBytes (laidOut_bytewise elem) len).places_eq]
  ext i
  rw [Set.mem_Iio, Set.mem_ofPred_eq, elementParts, hstride]
  constructor
  · rintro ⟨_, hpart, j, hj, rfl⟩
    obtain ⟨index, hindex, rfl⟩ := List.mem_map.mp hpart
    have hlt : j < (laidOut elem).codec.size := (laidOut_bytewise elem).lt j hj
    have hmul : (index + 1) * (laidOut elem).codec.size ≤ len * (laidOut elem).codec.size :=
      Nat.mul_le_mul_right _ (List.mem_range.mp hindex)
    rw [Nat.succ_mul, Nat.mul_comm len] at hmul
    show index * (laidOut elem).codec.size + j < _
    omega
  · intro hi
    have hpos : 0 < (laidOut elem).codec.size := Nat.pos_of_mul_pos_right (Nat.zero_lt_of_lt hi)
    refine ⟨_, List.mem_map_of_mem (List.mem_range.mpr (Nat.div_lt_of_lt_mul hi)),
      i % (laidOut elem).codec.size, ?_, ?_⟩
    · rw [h]
      exact Nat.mod_lt i hpos
    · exact (Nat.div_add_mod' i _).symm

theorem noPadding_single {ty : Ty} (h : NoPadding ty)
    (hpad : alignTo (laidOut ty).codec.size (maxAlign [(laidOut ty).layout]) =
      (laidOut ty).codec.size) : NoPadding (.struct [ty]) := by
  have hparts : partsFrom (laidOuts [ty]) 0 = [⟨0, (laidOut ty).codec⟩] := by
    rw [laidOuts, laidOuts, partsFrom, partsFrom, partsFrom, alignTo_zero, ite_self]
  have hend : structLikeEnd [(laidOut ty).layout] 0 = (laidOut ty).codec.size := by
    rw [Laid.layout, structLikeEnd, structLikeEnd, structLikeEnd, alignTo_zero, Nat.zero_add]
    split
    case isTrue hzero => exact hzero.symm
    case isFalse => rfl
  have hsize : (laidOut (.struct [ty])).codec.size = (laidOut ty).codec.size := by
    refine Eq.trans ?_ hpad
    show alignTo (structLikeEnd [(laidOut ty).layout] 0) _ = _
    rw [hend]
    rfl
  have hfields : ∀ laid ∈ laidOuts [ty], laid.codec.Bytewise := laidOuts_bytewise [ty]
  rw [NoPadding, hsize, laidOut, (structLaid_inBytes hfields).places_eq, hparts, ← h]
  ext i
  simp

theorem noPadding_twoWords {ty : Ty} (h : laidOut ty = structLaid [scalarLaid 8, scalarLaid 8]) :
    NoPadding ty := by
  have hparts : partsFrom [scalarLaid 8, scalarLaid 8] 0 =
      [⟨0, MemoryCodec.scalar 8⟩, ⟨8, MemoryCodec.scalar 8⟩] := rfl
  have hfields : ∀ laid ∈ [scalarLaid 8, scalarLaid 8], laid.codec.Bytewise :=
    List.forall_mem_cons.mpr ⟨(MemoryCodec.scalar_inBytes 8).bytewise,
      List.forall_mem_singleton.mpr (MemoryCodec.scalar_inBytes 8).bytewise⟩
  have hsize : (structLaid [scalarLaid 8, scalarLaid 8]).codec.size = 16 := rfl
  rw [NoPadding, h, hsize, (structLaid_inBytes hfields).places_eq, hparts]
  ext i
  simp only [List.mem_cons, List.not_mem_nil, or_false, exists_eq_or_imp, exists_eq_left,
    (MemoryCodec.scalar_inBytes 8).places_eq, Set.mem_ofPred_eq, Set.mem_Iio]
  constructor
  · rintro (⟨j, hj, rfl⟩ | ⟨j, hj, rfl⟩) <;> omega
  · intro hi
    by_cases hlow : i < 8
    · exact Or.inl ⟨i, hlow, (Nat.zero_add i).symm⟩
    · exact Or.inr ⟨i - 8, by omega, by omega⟩

theorem noPadding_unit : NoPadding .unit := by
  rw [NoPadding, laidOut, MemoryCodec.none_inBytes.places_eq]
  exact (Set.Iio_eq_empty_iff.mpr fun _ _ => Nat.zero_le _).symm

/-- Words as wide as they are aligned, one after the other, and nothing else. -/
theorem noPadding_words {width : Nat} (hwidth : width = 1 ∨ width = 2 ∨ width = 4 ∨ width = 8)
    (len : Nat) : NoPadding (.struct [.array (.int (width * 8) .unsigned) len]) := by
  have hword : laidOut (.int (width * 8) .unsigned) = scalarLaid width := by
    rcases hwidth with rfl | rfl | rfl | rfl <;> rfl
  have halign : (scalarLaid width).align = width := by
    rcases hwidth with rfl | rfl | rfl | rfl <;> rfl
  have hmax : max 1 width = width := by
    rcases hwidth with rfl | rfl | rfl | rfl <;> rfl
  have hpow : IsPowerOfTwo width := by
    rcases hwidth with rfl | rfl | rfl | rfl
    · exact ⟨0, rfl⟩
    · exact ⟨1, rfl⟩
    · exact ⟨2, rfl⟩
    · exact ⟨3, rfl⟩
  have hstride : alignTo width width = width := (alignTo_eq_self_iff hpow _).mpr dvd_rfl
  refine noPadding_single (noPadding_array (noPadding_scalar hword) ?_ len) ?_
  · rw [hword, halign]
    exact hstride
  · have harray : (laidOut (.array (.int (width * 8) .unsigned) len)).layout =
        (width * len, width) := by
      show (alignTo (laidOut (.int (width * 8) .unsigned)).codec.size
        (laidOut (.int (width * 8) .unsigned)).align * len,
        (laidOut (.int (width * 8) .unsigned)).align) = _
      rw [hword, halign]
      exact congrArg (fun stride => (stride * len, width)) hstride
    have hsize : (laidOut (.array (.int (width * 8) .unsigned) len)).codec.size = width * len :=
      congrArg Prod.fst harray
    rw [hsize, harray, maxAlign, List.foldl_cons, List.foldl_nil, hmax]
    exact (alignTo_eq_self_iff hpow _).mpr (Nat.dvd_mul_right width len)

theorem enumStackAlign_cases (layout : EnumLayout) : enumStackAlign layout = 1 ∨
    enumStackAlign layout = 2 ∨ enumStackAlign layout = 4 ∨ enumStackAlign layout = 8 := by
  have halign : enumStackAlign layout = min (2 ^ layout.logAlign) 8 := by
    rw [enumStackAlign, EnumLayout.align, Nat.max_eq_left Nat.one_le_two_pow]
  rw [halign]
  by_cases hlarge : 3 ≤ layout.logAlign
  · have hpow : 2 ^ 3 ≤ 2 ^ layout.logAlign := Nat.pow_le_pow_right (by decide) hlarge
    omega
  · obtain h | h | h : layout.logAlign = 0 ∨ layout.logAlign = 1 ∨ layout.logAlign = 2 := by omega
    · rw [h]
      decide
    · rw [h]
      decide
    · rw [h]
      decide

/-- Every part that is loaded at once is without padding. -/
theorem noPadding_loadedParts (ty : RustTy) : ∀ part ∈ loadedParts ty, NoPadding part.ty := by
  induction ty using RustTy.parts_induction with
  | h ty ih =>
    have hfields {rustcOf stackOf : Nat → Option Nat} {fields : List RustTy}
        (hall : ∀ field ∈ fields, ∀ part ∈ loadedParts field, NoPadding part.ty) :
        ∀ part ∈ loadedFields rustcOf stackOf fields 0, NoPadding part.ty := by
      intro part hpart
      obtain ⟨k, field, hfield, -, inner, hinner, rfl⟩ := mem_loadedFields.mp hpart
      exact hall field (List.mem_of_getElem? hfield) inner hinner
    cases ty with
    | tuple | closure | struct => exact hfields ih
    | array elem len =>
      intro part hpart
      obtain ⟨index, -, hpart⟩ := List.mem_flatMap.mp hpart
      obtain ⟨inner, hinner, rfl⟩ := List.mem_map.mp hpart
      exact ih elem (List.mem_singleton.mpr rfl) inner hinner
    | fmtArguments =>
      exact List.forall_mem_cons.mpr ⟨noPadding_scalar rfl,
        List.forall_mem_singleton.mpr (noPadding_scalar rfl)⟩
    | union fields repr =>
      refine List.forall_mem_singleton.mpr ?_
      rw [convertTy]
      split
      case isTrue => exact noPadding_single noPadding_unit rfl
      case isFalse => exact noPadding_words (Or.inl rfl) _
    | enum layout =>
      refine List.forall_mem_singleton.mpr ?_
      rw [convertTy, enumBlobTy]
      split
      case isTrue => exact noPadding_unit
      case isFalse => exact noPadding_words (enumStackAlign_cases layout) _
    | ref tail =>
      refine List.forall_mem_singleton.mpr ?_
      rcases tail with _ | _ | _ | _
      · exact noPadding_scalar rfl
      · exact noPadding_twoWords rfl
      · exact noPadding_twoWords rfl
      · exact noPadding_twoWords rfl
    | fmtArgumentType => exact List.forall_mem_singleton.mpr (noPadding_twoWords rfl)
    | int kind => exact List.forall_mem_singleton.mpr (noPadding_scalar rfl)
    | uint kind => exact List.forall_mem_singleton.mpr (noPadding_scalar rfl)
    | fnDef | never | str | dynamic | slice => exact fun _ hpart => absurd hpart List.not_mem_nil
    | _ => exact List.forall_mem_singleton.mpr (noPadding_scalar rfl)

/-! ## Where the layouts agree -/

/-- Everything loaded at rustc's offsets, within so many words, is where the
    back end has it. -/
def LoadsAsRealLayout (ty : RustTy) (words : Nat) : Prop :=
  ∀ part ∈ loadedParts ty, part.size ≠ 0 →
    part.rustc = part.stack ∧ part.stack + part.size ≤ 8 * words

/-- A part with a size is the same in all memories that agree on the words
    exactly when it is at one offset, within the words. -/
theorem sameIn_iff {part : LoadedPart} (hpart : NoPadding part.ty) (words : Nat) :
    (∀ (mem mem' : ByteMemory) (a a' : Int),
      (∀ i : Nat, i < 8 * words → mem' (a' + i) = mem (a + i)) → part.SameIn mem mem' a a') ↔
    (part.size ≠ 0 → part.rustc = part.stack ∧ part.stack + part.size ≤ 8 * words) := by
  have hbytes := laidOut_bytewise part.ty
  rw [MemoryCodec.Bytewise, hpart] at hbytes
  have hiff (mem mem' : ByteMemory) (a a' : Int) : part.SameIn mem mem' a a' ↔
      ∀ i < part.size, mem (a + part.rustc + i) = mem' (a' + part.stack + i) := hbytes.read_eq_iff
  simp only [hiff]
  constructor
  · intro h hsize
    constructor
    · -- One byte of ones, where the part starts in the back end's layout.
      have hbyte := h (Function.update zeros (part.stack : Int) 1)
        (Function.update zeros (part.stack : Int) 1) 0 0 (fun _ _ => rfl) 0
        (Nat.pos_of_ne_zero hsize)
      simp only [Int.zero_add, Int.natCast_zero, Int.add_zero, Function.update_self] at hbyte
      by_contra hne
      rw [Function.update_of_ne (by omega), zeros] at hbyte
      exact absurd hbyte (by decide)
    · by_contra hbeyond
      -- One behind the words, in one of the memories only.
      have hbyte := h zeros (Function.update zeros ((part.stack + (part.size - 1) : Nat) : Int) 1)
        0 0 (fun i hi => Function.update_of_ne (by omega) _ _) (part.size - 1) (by omega)
      rw [Int.zero_add, Int.zero_add, ← Nat.cast_add, ← Nat.cast_add, Function.update_self,
        zeros] at hbyte
      exact absurd hbyte (by decide)
  · intro h mem mem' a a' hmem i hi
    obtain ⟨hoffset, hwithin⟩ := h (by omega)
    have hbyte := hmem (part.stack + i) (by omega)
    rw [Nat.cast_add, ← Int.add_assoc, ← Int.add_assoc] at hbyte
    rw [hoffset, hbyte]

/-- Loading a type is reading it wherever the words are the same exactly when
    what it loads is where the back end has it. -/
theorem loadsAsRealLayout_iff {ty : RustTy} (horder : WellOrdered ty) {loader : Loader}
    (h : loadValueFromRealLayout ty = some loader) (words : Nat) :
    LoadsAsRealLayout ty words ↔ ∀ undef, FitsAll undef →
      ∀ (mem mem' : ByteMemory) (a a' : Int),
        (∀ i : Nat, i < 8 * words → mem' (a' + i) = mem (a + i)) →
          loader undef mem a = (laidOut (convertTy ty)).codec.read mem' a' := by
  have hloads := loadsParts ty horder loader h
  constructor
  · intro hoffsets undef hundef mem mem' a a' hmem
    refine (hloads undef hundef mem mem' a a').mpr fun part hpart => ?_
    exact (sameIn_iff (noPadding_loadedParts ty part hpart) words).mpr (hoffsets part hpart)
      mem mem' a a' hmem
  · intro hall part hpart
    have hundef : FitsAll fun ty => (laidOut ty).codec.read zeros 0 :=
      fun ty => (laidOut ty).codec.fits_read _ _
    refine (sameIn_iff (noPadding_loadedParts ty part hpart) words).mp fun mem mem' a a' hmem => ?_
    exact (hloads _ hundef mem mem' a a').mp (hall _ hundef mem mem' a a' hmem) part hpart

end Crabbit.Importer
