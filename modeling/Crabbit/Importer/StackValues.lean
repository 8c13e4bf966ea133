/-
  Crabbit.Importer.StackValues

  Values of the converted types in memory: loads and stores of aggregates go
  field by field, at the offsets of the back end's layout.
-/

import Crabbit.Importer.LayoutAgreement
import Crabbit.Lib.MemoryCodec

namespace Crabbit.Importer

open Crabbit.Lib (MemoryCodec Val)
open Crabbit.Lib.MemoryCodec (Part Apart)
open Crabbit.Llvm (Ty)
open Crabbit.Aarch64 (scalarSizeOf clampAlign stackSizeOf stackAlignOf aggregateFieldLayout)

/-! ## Laid-out types -/

/-- A codec, with the alignment its values are placed by. -/
structure Laid where
  codec : MemoryCodec
  align : Nat

def Laid.layout (laid : Laid) : FieldLayout := (laid.codec.size, laid.align)

/-- The fields of a struct at their offsets. -/
def partsFrom : List Laid → Nat → List Part
  | [], _ => []
  | laid :: fields, offset =>
      if laid.codec.size = 0 then ⟨offset, laid.codec⟩ :: partsFrom fields offset
      else ⟨alignTo offset laid.align, laid.codec⟩ ::
        partsFrom fields (alignTo offset laid.align + laid.codec.size)

/-- Fields one after the other lie apart, up to the end of the last. -/
theorem partsFrom_apart (fields : List Laid) (offset : Nat) :
    Apart (partsFrom fields offset) ∧ ∀ part ∈ partsFrom fields offset,
      offset ≤ part.offset ∧ part.stop ≤ structLikeEnd (fields.map Laid.layout) offset := by
  induction fields generalizing offset with
  | nil => exact ⟨List.Pairwise.nil, nofun⟩
  | cons laid fields ih =>
    rw [List.map_cons, Laid.layout, partsFrom, structLikeEnd]
    by_cases hzero : laid.codec.size = 0
    · obtain ⟨hapart, hparts⟩ := ih offset
      rw [if_pos hzero, if_pos hzero]
      have hstop : (⟨offset, laid.codec⟩ : Part).stop = offset := by
        rw [Part.stop, hzero, Nat.add_zero]
      refine ⟨List.pairwise_cons.mpr ⟨fun part hpart => ?_, hapart⟩,
        List.forall_mem_cons.mpr ⟨⟨Nat.le_refl _, ?_⟩, hparts⟩⟩
      · rw [hstop]
        exact (hparts part hpart).1
      · rw [hstop]
        exact le_structLikeEnd _ _
    · obtain ⟨hapart, hparts⟩ := ih (alignTo offset laid.align + laid.codec.size)
      have hle := le_alignTo offset laid.align
      have hend := le_structLikeEnd (fields.map Laid.layout)
        (alignTo offset laid.align + laid.codec.size)
      rw [if_neg hzero, if_neg hzero]
      refine ⟨List.pairwise_cons.mpr ⟨fun part hpart => ?_, hapart⟩,
        List.forall_mem_cons.mpr ⟨⟨hle, hend⟩, fun part hpart => ?_⟩⟩
      · exact (hparts part hpart).1
      · obtain ⟨hoffset, hstop⟩ := hparts part hpart
        exact ⟨by omega, hstop⟩

/-- A struct of the fields. -/
def structLaid (fields : List Laid) : Laid where
  codec := MemoryCodec.record (partsFrom fields 0)
    (alignTo (structLikeEnd (fields.map Laid.layout) 0) (maxAlign (fields.map Laid.layout)))
    (partsFrom_apart fields 0).1
    fun part hpart => Nat.le_trans ((partsFrom_apart fields 0).2 part hpart).2 (le_alignTo _ _)
  align := maxAlign (fields.map Laid.layout)

/-- The elements of an array. -/
def elementParts (elem : Laid) (len : Nat) : List Part :=
  (List.range len).map fun index => ⟨index * alignTo elem.codec.size elem.align, elem.codec⟩

theorem elementParts_apart (elem : Laid) (len : Nat) : Apart (elementParts elem len) := by
  rw [elementParts, Apart, List.pairwise_map]
  refine List.pairwise_lt_range.imp fun {i j} hlt => ?_
  have hsize := le_alignTo elem.codec.size elem.align
  have hmul : (i + 1) * alignTo elem.codec.size elem.align ≤
      j * alignTo elem.codec.size elem.align := Nat.mul_le_mul_right _ hlt
  rw [Nat.succ_mul] at hmul
  show i * alignTo elem.codec.size elem.align + elem.codec.size ≤
    j * alignTo elem.codec.size elem.align
  omega

theorem elementParts_stop_le (elem : Laid) (len : Nat) : ∀ part ∈ elementParts elem len,
    part.stop ≤ alignTo elem.codec.size elem.align * len := by
  rw [elementParts, List.forall_mem_map]
  intro index hindex
  have hsize := le_alignTo elem.codec.size elem.align
  have hmul : (index + 1) * alignTo elem.codec.size elem.align ≤
      len * alignTo elem.codec.size elem.align :=
    Nat.mul_le_mul_right _ (List.mem_range.mp hindex)
  rw [Nat.succ_mul, Nat.mul_comm len] at hmul
  show index * alignTo elem.codec.size elem.align + elem.codec.size ≤ _
  omega

def arrayLaid (elem : Laid) (len : Nat) : Laid where
  codec := MemoryCodec.record (elementParts elem len) (alignTo elem.codec.size elem.align * len)
    (elementParts_apart elem len) (elementParts_stop_le elem len)
  align := elem.align

/-- A scalar of as many bytes. -/
def scalarLaid (size : Nat) : Laid := ⟨.scalar size, clampAlign size⟩

mutual

/-- A type of the back end, laid out; there are no values of types it does not
    support. -/
def laidOut : Ty → Laid
  | .unit | .void | .opaqueStruct | .vector _ _ => ⟨.none, 1⟩
  | .int width _ => scalarLaid (max ((width + 7) / 8) 1)
  | .pointer | .fp64 => scalarLaid 8
  | .fp32 => scalarLaid 4
  | .array elem len => arrayLaid (laidOut elem) len
  | .struct fields => structLaid (laidOuts fields)

def laidOuts : List Ty → List Laid
  | [] => []
  | field :: fields => laidOut field :: laidOuts fields

end

/-! ## The layout is that of the back end -/

mutual

/-- Whether the back end lays values of the type out. -/
def supported : Ty → Bool
  | .opaqueStruct | .vector _ _ => false
  | .array elem _ => supported elem
  | .struct fields => allSupported fields
  | _ => true

def allSupported : List Ty → Bool
  | [] => true
  | field :: fields => supported field && allSupported fields

end

theorem laidOuts_eq (tys : List Ty) : laidOuts tys = tys.map laidOut := by
  induction tys with
  | nil => rfl
  | cons ty tys ih => rw [laidOuts, ih, List.map_cons]

theorem allSupported_iff (tys : List Ty) :
    allSupported tys = true ↔ ∀ ty ∈ tys, supported ty = true := by
  induction tys with
  | nil => simp [allSupported]
  | cons ty tys ih => rw [allSupported, Bool.and_eq_true, ih, List.forall_mem_cons]

mutual

theorem hasLayout_laidOut : ∀ ty : Ty, supported ty = true → HasLayout ty (laidOut ty).layout
  | .unit, _ => ⟨rfl, rfl⟩
  | .void, _ => ⟨rfl, rfl⟩
  | .opaqueStruct, h => (by cases h)
  | .vector _ _, h => (by cases h)
  | .int _ _, _ => ⟨rfl, rfl⟩
  | .pointer, _ => ⟨rfl, rfl⟩
  | .fp32, _ => ⟨rfl, rfl⟩
  | .fp64, _ => ⟨rfl, rfl⟩
  | .array elem len, h => by
    have helem := hasLayout_laidOut elem (by rw [supported] at h; exact h)
    rw [laidOut]
    exact HasLayout.array helem len
  | .struct fields, h => by
    have hfields := hasLayout_laidOuts fields (by rw [supported] at h; exact h)
    rw [laidOut]
    exact ⟨stackSizeOf_struct hfields, stackAlignOf_struct hfields⟩

theorem hasLayout_laidOuts : ∀ tys : List Ty, allSupported tys = true →
    List.Forall₂ HasLayout tys ((laidOuts tys).map Laid.layout)
  | [], _ => .nil
  | ty :: tys, h => by
    rw [allSupported, Bool.and_eq_true] at h
    exact .cons (hasLayout_laidOut ty h.1) (hasLayout_laidOuts tys h.2)

end

/-- The offsets of the parts are those of the struct's layout. -/
theorem partsFrom_offsets (fields : List Laid) (offset : Nat) :
    (partsFrom fields offset).map Part.offset =
      structLikeFieldOffsets (fields.map Laid.layout) offset := by
  induction fields generalizing offset with
  | nil => rfl
  | cons laid fields ih =>
    rw [List.map_cons, Laid.layout, partsFrom, structLikeFieldOffsets]
    by_cases hzero : laid.codec.size = 0
    · rw [if_pos hzero, if_pos hzero, List.map_cons, ih]
    · rw [if_neg hzero, if_neg hzero, List.map_cons, ih]

theorem partsFrom_codecs (fields : List Laid) (offset : Nat) :
    (partsFrom fields offset).map Part.codec = fields.map Laid.codec := by
  induction fields generalizing offset with
  | nil => rfl
  | cons laid fields ih =>
    rw [partsFrom]
    split <;> rw [List.map_cons, ih, List.map_cons]

/-! ## Fields of a struct -/

/-- `llvm.extractvalue`. -/
def extractValue (v : Val) (index : Nat) : Val :=
  match v with
  | .aggregate vs => vs.getD index .unit
  | _ => .unit

/-- `llvm.insertvalue`. -/
def insertValue (v field : Val) (index : Nat) : Val :=
  match v with
  | .aggregate vs => .aggregate (vs.set index field)
  | v => v

/-- The value of a type. -/
def Fits (ty : Ty) (v : Val) : Prop := (laidOut ty).codec.fits v

theorem forall₂_partsFrom {fields : List Laid} {offset : Nat} {vs : List Val} :
    List.Forall₂ (fun (part : Part) v => part.codec.fits v) (partsFrom fields offset) vs ↔
      List.Forall₂ (fun laid v => MemoryCodec.fits (Laid.codec laid) v) fields vs := by
  rw [← List.forall₂_map_left_iff (f := Part.codec) (R := fun codec v => codec.fits v),
    partsFrom_codecs, List.forall₂_map_left_iff]

/-- The values of a struct are those of its fields. -/
theorem fits_struct_iff {tys : List Ty} {v : Val} :
    Fits (.struct tys) v ↔ ∃ vs, v = .aggregate vs ∧ List.Forall₂ Fits tys vs := by
  rw [Fits, laidOut, laidOuts_eq]
  constructor
  · rintro ⟨vs, rfl, hvs⟩
    rw [forall₂_partsFrom, List.forall₂_map_left_iff] at hvs
    exact ⟨vs, rfl, hvs⟩
  · rintro ⟨vs, rfl, hvs⟩
    refine ⟨vs, rfl, ?_⟩
    rw [forall₂_partsFrom, List.forall₂_map_left_iff]
    exact hvs

theorem extractValue_aggregate {vs : List Val} {index : Nat} {v : Val}
    (h : vs[index]? = some v) : extractValue (.aggregate vs) index = v := by
  show vs.getD index .unit = v
  rw [List.getD_eq_getElem?_getD, h, Option.getD_some]

/-- A field of a struct is a part of its record. -/
theorem exists_fieldPart {tys : List Ty} {index offset : Nat} {ty : Ty}
    (hty : tys[index]? = some ty)
    (hoffset : (structLikeFieldOffsets (tys.map fun ty => (laidOut ty).layout) 0)[index]? =
      some offset) : ∃ part, (partsFrom (laidOuts tys) 0)[index]? = some part ∧
        part.offset = offset ∧ part.codec = (laidOut ty).codec := by
  have hoffsets := congrArg (·[index]?) (partsFrom_offsets (laidOuts tys) 0)
  have hcodecs := congrArg (·[index]?) (partsFrom_codecs (laidOuts tys) 0)
  simp only [laidOuts_eq, List.map_map, List.getElem?_map] at hoffsets hcodecs
  rw [show (Laid.layout ∘ laidOut) = fun ty => (laidOut ty).layout from rfl, hoffset] at hoffsets
  rw [hty] at hcodecs
  rw [laidOuts_eq]
  obtain ⟨part, hpart, hat⟩ := Option.map_eq_some_iff.mp hoffsets
  rw [hpart] at hcodecs
  exact ⟨part, hpart, hat, Option.some.inj hcodecs⟩

/-- A field of a struct in memory is at its offset. -/
theorem extractValue_read {tys : List Ty} {index offset : Nat} {ty : Ty}
    (hty : tys[index]? = some ty)
    (hoffset : (structLikeFieldOffsets (tys.map fun ty => (laidOut ty).layout) 0)[index]? =
      some offset) (mem : Lib.ByteMemory) (a : Int) :
    extractValue ((laidOut (.struct tys)).codec.read mem a) index =
      (laidOut ty).codec.read mem (a + offset) := by
  obtain ⟨part, hpart, rfl, hcodec⟩ := exists_fieldPart hty hoffset
  rw [laidOut, ← hcodec]
  apply extractValue_aggregate
  rw [MemoryCodec.readParts, List.getElem?_map, hpart, Option.map_some]

/-! ## The bytes of values -/

theorem partsFrom_forall {P : MemoryCodec → Prop} {fields : List Laid} (offset : Nat)
    (h : ∀ laid ∈ fields, P laid.codec) : ∀ part ∈ partsFrom fields offset, P part.codec := by
  intro part hpart
  have hcodec := List.mem_map_of_mem (f := Part.codec) hpart
  rw [partsFrom_codecs] at hcodec
  obtain ⟨laid, hlaid, heq⟩ := List.mem_map.mp hcodec
  rw [← heq]
  exact h laid hlaid

theorem structLaid_inBytes {fields : List Laid} (h : ∀ laid ∈ fields, laid.codec.Bytewise) :
    (structLaid fields).codec.InBytes {i | ∃ part ∈ partsFrom fields 0,
      ∃ j ∈ part.codec.places, i = part.offset + j} :=
  MemoryCodec.record_inBytes (partsFrom_apart fields 0).1 (fun part hpart =>
    Nat.le_trans ((partsFrom_apart fields 0).2 part hpart).2 (le_alignTo _ _))
    (partsFrom_forall 0 h)

theorem arrayLaid_inBytes {elem : Laid} (h : elem.codec.Bytewise) (len : Nat) :
    (arrayLaid elem len).codec.InBytes {i | ∃ part ∈ elementParts elem len,
      ∃ j ∈ part.codec.places, i = part.offset + j} := by
  refine MemoryCodec.record_inBytes (elementParts_apart elem len) (elementParts_stop_le elem len) ?_
  rw [elementParts, List.forall_mem_map]
  exact fun _ _ => h

mutual

theorem laidOut_bytewise : ∀ ty : Ty, (laidOut ty).codec.Bytewise
  | .unit | .void | .opaqueStruct | .vector _ _ => MemoryCodec.none_inBytes.bytewise
  | .int _ _ | .pointer | .fp64 | .fp32 => (MemoryCodec.scalar_inBytes _).bytewise
  | .array elem len => (arrayLaid_inBytes (laidOut_bytewise elem) len).bytewise
  | .struct fields => (structLaid_inBytes (laidOuts_bytewise fields)).bytewise

theorem laidOuts_bytewise : ∀ tys : List Ty, ∀ laid ∈ laidOuts tys, laid.codec.Bytewise
  | [], _, h => absurd h List.not_mem_nil
  | ty :: tys, laid, h => by
    rcases List.mem_cons.mp h with rfl | h
    · exact laidOut_bytewise ty
    · exact laidOuts_bytewise tys laid h

end

/-- Storing a value that is loaded from there changes nothing. -/
theorem laidOut_writesBack (ty : Ty) : (laidOut ty).codec.WritesBack :=
  (laidOut_bytewise ty).writesBack

theorem laidOut_movable (ty : Ty) : (laidOut ty).codec.Movable := (laidOut_bytewise ty).movable

/-- The first field with a size is at the start. -/
theorem exists_firstPart {fields : List Laid} (h : ∃ laid ∈ fields, laid.codec.size ≠ 0) :
    ∃ part ∈ partsFrom fields 0, part.offset = 0 ∧
      ∃ laid ∈ fields, laid.codec.size ≠ 0 ∧ part.codec = laid.codec := by
  induction fields with
  | nil =>
    obtain ⟨laid, hlaid, -⟩ := h
    exact absurd hlaid List.not_mem_nil
  | cons laid fields ih =>
    rw [partsFrom]
    by_cases hzero : laid.codec.size = 0
    · rw [if_pos hzero]
      obtain ⟨sized, hsized, hne⟩ := h
      rcases List.mem_cons.mp hsized with rfl | hsized
      · exact absurd hzero hne
      · obtain ⟨part, hpart, hoffset, first, hfirst, hcodec⟩ := ih ⟨sized, hsized, hne⟩
        exact ⟨part, List.mem_cons_of_mem _ hpart, hoffset, first, List.mem_cons_of_mem _ hfirst,
          hcodec⟩
    · rw [if_neg hzero]
      exact ⟨_, List.mem_cons_self, alignTo_zero _, laid, List.mem_cons_self, hzero, rfl⟩

mutual

/-- A value with a size has a byte at its start. -/
theorem zero_mem_places : ∀ ty : Ty, (laidOut ty).codec.size ≠ 0 → 0 ∈ (laidOut ty).codec.places
  | .unit, h => absurd rfl h
  | .void, h => absurd rfl h
  | .opaqueStruct, h => absurd rfl h
  | .vector _ _, h => absurd rfl h
  | .int _ _, h => MemoryCodec.zero_mem_scalar h
  | .pointer, h => MemoryCodec.zero_mem_scalar h
  | .fp32, h => MemoryCodec.zero_mem_scalar h
  | .fp64, h => MemoryCodec.zero_mem_scalar h
  | .array elem len, h => by
    rw [laidOut] at h ⊢
    obtain ⟨helem, hlen⟩ := not_or.mp (mt Nat.mul_eq_zero.mpr h)
    have hsize : (laidOut elem).codec.size ≠ 0 := fun hzero => helem (by rw [hzero, alignTo_zero])
    rw [(arrayLaid_inBytes (laidOut_bytewise elem) len).places_eq]
    refine ⟨⟨0, (laidOut elem).codec⟩, List.mem_map.mpr ⟨0, ?_, ?_⟩, 0, zero_mem_places elem hsize,
      rfl⟩
    · exact List.mem_range.mpr (Nat.pos_of_ne_zero hlen)
    · rw [Nat.zero_mul]
  | .struct fields, h => by
    rw [laidOut] at h ⊢
    have hend : ¬ ∀ layout ∈ (laidOuts fields).map Laid.layout, layout.1 = 0 := fun hzero =>
      h (alignTo_eq_zero.mpr ((structLikeEnd_eq_self _ 0).mpr hzero))
    rw [List.forall_mem_map] at hend
    obtain ⟨sized, hsized, hne⟩ := not_forall₂.mp hend
    obtain ⟨part, hpart, hoffset, laid, hlaid, hsize, hcodec⟩ :=
      exists_firstPart ⟨sized, hsized, hne⟩
    rw [(structLaid_inBytes (laidOuts_bytewise fields)).places_eq]
    refine ⟨part, hpart, 0, ?_, by rw [hoffset]⟩
    rw [hcodec]
    exact zero_mem_places_of_mem fields laid hlaid hsize

theorem zero_mem_places_of_mem : ∀ tys : List Ty, ∀ laid ∈ laidOuts tys, laid.codec.size ≠ 0 →
    0 ∈ laid.codec.places
  | [], _, h, _ => absurd h List.not_mem_nil
  | ty :: tys, laid, h, hsize => by
    rcases List.mem_cons.mp h with rfl | h
    · exact zero_mem_places ty hsize
    · exact zero_mem_places_of_mem tys laid h hsize

end

/-! ## One field written -/

/-- A struct stored back with one field replaced: only the field is stored. -/
theorem write_insertValue {tys : List Ty} {index offset : Nat} {ty : Ty}
    (hty : tys[index]? = some ty)
    (hoffset : (structLikeFieldOffsets (tys.map fun ty => (laidOut ty).layout) 0)[index]? =
      some offset) (field : Val) (mem : Lib.ByteMemory) (a : Int) :
    (laidOut (.struct tys)).codec.write
        (insertValue ((laidOut (.struct tys)).codec.read mem a) field index) mem a =
      (laidOut ty).codec.write field mem (a + offset) := by
  obtain ⟨part, hpart, rfl, hcodec⟩ := exists_fieldPart hty hoffset
  rw [laidOut, ← hcodec]
  exact MemoryCodec.writeParts_set (partsFrom_apart _ 0).1
    (partsFrom_forall 0 fun laid hlaid => (laidOuts_bytewise tys laid hlaid).writesBack) hpart
    field mem a

/-- Structs that differ in one field are stored the same outside its bytes. -/
theorem write_eq_of_extractValue {tys : List Ty} {v v' : Val} (hv : Fits (.struct tys) v)
    (hv' : Fits (.struct tys) v') {index offset : Nat} {ty : Ty} (hty : tys[index]? = some ty)
    (hoffset : (structLikeFieldOffsets (tys.map fun ty => (laidOut ty).layout) 0)[index]? =
      some offset)
    (hsame : ∀ other < tys.length, other ≠ index → extractValue v other = extractValue v' other)
    (mem : Lib.ByteMemory) {a x : Int}
    (hx : ∀ i ∈ (laidOut ty).codec.places, x ≠ a + offset + i) :
    (laidOut (.struct tys)).codec.write v mem a x =
      (laidOut (.struct tys)).codec.write v' mem a x := by
  obtain ⟨part, hpart, rfl, hcodec⟩ := exists_fieldPart hty hoffset
  rw [← hcodec] at hx
  rw [Fits, laidOut] at hv hv'
  rw [laidOut]
  obtain ⟨vs, rfl, hvs⟩ := hv
  obtain ⟨vs', rfl, hvs'⟩ := hv'
  refine MemoryCodec.writeParts_eq_of_ne (partsFrom_apart _ 0).1
    (partsFrom_forall 0 (laidOuts_bytewise tys)) hvs hvs' hpart (fun j hj => ?_) mem hx
  have hcount : (partsFrom (laidOuts tys) 0).length = tys.length := by
    have hcodecs := congrArg List.length (partsFrom_codecs (laidOuts tys) 0)
    simp only [List.length_map, laidOuts_eq] at hcodecs
    rw [laidOuts_eq, hcodecs]
  rcases Nat.lt_or_ge j tys.length with hlt | hge
  · have hlt' : j < vs.length := by rw [← hvs.length_eq, hcount]; exact hlt
    have hlt'' : j < vs'.length := by rw [← hvs'.length_eq, hcount]; exact hlt
    have hfield := hsame j hlt hj
    rw [extractValue_aggregate (List.getElem?_eq_getElem hlt'),
      extractValue_aggregate (List.getElem?_eq_getElem hlt'')] at hfield
    rw [List.getElem?_eq_getElem hlt', List.getElem?_eq_getElem hlt'', hfield]
  · rw [List.getElem?_eq_none (by rw [← hvs.length_eq, hcount]; exact hge),
      List.getElem?_eq_none (by rw [← hvs'.length_eq, hcount]; exact hge)]

end Crabbit.Importer
