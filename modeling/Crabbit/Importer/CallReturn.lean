/-
  Crabbit.Importer.CallReturn

  How the result of a call comes back: where the back end reads it from
  (`isel_memory_abi.rs`), and what a direct call into code compiled by rustc
  does with it (`importer/abi.rs`, the call terminator of `importer/stmt.rs`,
  `load_value_from_real_layout` of `importer/constants.rs`).

  The importer has a result of a type whose layout matters returned as words,
  by the number of which the back end chooses between registers and memory,
  and reads the value from these words at rustc's offsets.
-/

import Crabbit.Aarch64.CallLowering
import Crabbit.Importer.CallAbi
import Crabbit.Importer.RustcLayout

namespace Crabbit.Importer

open Crabbit.Lib (ByteMemory MemoryCodec Val)
open Crabbit.Llvm (Ty)
open Crabbit.Aarch64 (FpKind fpKind is128BitInteger stackSizeOf)

/-! ## The back end -/

inductive ResultLocation where
  | void
  | scalarX0
  | scalarX0X1
  | fpr (kind : FpKind)
  | directGprs (count : Nat)
  | indirectX8
  deriving DecidableEq

/-- The location of an aggregate of `size` bytes. -/
def aggregateLocation (size : Nat) : ResultLocation :=
  if size ≤ 8 then .directGprs 1 else if size ≤ 16 then .directGprs 2 else .indirectX8

/-- `result_location_for_type`, of a type of `size` bytes. -/
def sizedLocation (ty : Ty) (size : Nat) : ResultLocation :=
  if size = 0 then .void
  else if is128BitInteger ty then .scalarX0X1
  else match fpKind ty with
    | some kind => .fpr kind
    | none => if isAggregateTy ty then aggregateLocation size else .scalarX0

/-- `result_location_for_type`. -/
def resultLocationForType (ty : Ty) : Option ResultLocation :=
  (stackSizeOf ty).map (sizedLocation ty)

/-- The registers after a call: `x0` and `x1` as sixteen bytes, and `v0`. -/
structure Returned where
  x : ByteMemory
  v : ByteMemory

/-- The bytes a result is read from; `buffer` is where `x8` pointed. -/
def Returned.at (r : Returned) (buffer : ByteMemory) : ResultLocation → ByteMemory
  | .fpr _ => r.v
  | .indirectX8 => buffer
  | .void | .scalarX0 | .scalarX0X1 | .directGprs _ => r.x

/-- The result of a call, read by the back end. -/
def readResult (ty : Ty) (r : Returned) (buffer : ByteMemory) : Option Val :=
  (resultLocationForType ty).map fun location => (laidOut ty).codec.read (r.at buffer location) 0

/-! ## Reading at rustc's offsets -/

/-- What an emitted load computes, undefined values being these. -/
abbrev Loader := (Ty → Val) → ByteMemory → Int → Val

/-- What inserting loaded fields makes of an aggregate. -/
abbrev FieldLoader := (Ty → Val) → ByteMemory → Int → Val → Val

def loadDirect (ty : RustTy) : Loader := fun _ mem addr => (laidOut (convertTy ty)).codec.read mem addr

/-- `field_based`: the fields are inserted into an undefined aggregate. -/
def fieldBased (ty : RustTy) (fields : FieldLoader) : Loader := fun undef mem addr =>
  fields undef mem addr (undef (convertTy ty))

/-- The elements of an array, each `stride` bytes after the last. -/
def loadElements (ty : RustTy) (elem : Loader) (len stride : Nat) : Loader := fun undef mem addr =>
  (List.range len).foldl
    (fun current index => insertValue current (elem undef mem (addr + (index * stride : Nat))) index)
    (undef (convertTy ty))

/-- `fmt::Arguments`: two `NonNull` pointers, each held as a pointer. -/
def loadFmtArguments : Loader := fun undef mem addr =>
  insertValue (insertValue (undef (convertTy .fmtArguments))
    ((laidOut .pointer).codec.read mem addr) 0) ((laidOut .pointer).codec.read mem (addr + 8)) 1

mutual

/-- `load_value_from_real_layout`; there is none of types without a size. -/
def loadValueFromRealLayout : RustTy → Option Loader
  | .bool => some (loadDirect .bool)
  | .char => some (loadDirect .char)
  | .int kind => some (loadDirect (.int kind))
  | .uint kind => some (loadDirect (.uint kind))
  | .f32 => some (loadDirect .f32)
  | .f64 => some (loadDirect .f64)
  | .fnPtr => some (loadDirect .fnPtr)
  | .ref tail => some (loadDirect (.ref tail))
  | .tuple fields order => (loadFields (rustcFieldOffset (.tuple fields order))
      (convertedFieldIndex (.tuple fields order)) fields 0).map (fieldBased (.tuple fields order))
  | .closure fields order => (loadFields (rustcFieldOffset (.closure fields order))
      (convertedFieldIndex (.closure fields order)) fields 0).map
        (fieldBased (.closure fields order))
  | .struct fields order repr => (loadFields (rustcFieldOffset (.struct fields order repr))
      (convertedFieldIndex (.struct fields order repr)) fields 0).map
        (fieldBased (.struct fields order repr))
  | .fmtArguments => some loadFmtArguments
  | .fmtArgumentType => some (loadDirect .fmtArgumentType)
  | .union fields repr => some (loadDirect (.union fields repr))
  | .enum layout => some (loadDirect (.enum layout))
  | .array elem len =>
      if len = 0 then some fun undef _ _ => undef (convertTy (.array elem len))
      else (loadValueFromRealLayout elem).map fun loader =>
        loadElements (.array elem len) loader len (rustcSize elem)
  | .fnDef | .never | .str | .dynamic | .slice _ => none

/-- The fields from `index` on; those without a size are left undefined. -/
def loadFields (offsetOf : Nat → Option Nat) (position : Nat → Nat) :
    List RustTy → Nat → Option FieldLoader
  | [], _ => some fun _ _ _ current => current
  | field :: fields, index =>
      if layoutSizeOfTy field = 0 then loadFields offsetOf position fields (index + 1)
      else (offsetOf index).bind fun offset => (loadValueFromRealLayout field).bind fun loader =>
        (loadFields offsetOf position fields (index + 1)).map fun rest => fun undef mem addr current =>
          rest undef mem addr
            (insertValue current (loader undef mem (addr + offset)) (position index))

end

/-! ## The result of a call -/

/-- `convert_return_ty`. -/
def convertReturnTy : RustTy → Option Ty
  | .tuple [] _ => none
  | .never => none
  | .bool => some boolImmediate
  | ty => some (convertTy ty)

inductive RustReturn where
  /-- In registers the way crabbit's backend reads them. -/
  | registers
  /-- Through the indirect-result pointer (x8). -/
  | indirect
  /-- A scalar pair, the second scalar of which comes back in x1. -/
  | pair (secondOffset secondSize : Nat)
  deriving DecidableEq

/-- The return of a `PassMode`. -/
def PassMode.rustReturn : PassMode → RustReturn
  | .indirect _ => .indirect
  | .pair (some repr) =>
      if repr.bOffset < 8 then .pair repr.bOffset repr.b.size else .registers
  | _ => .registers

/-- `rust_abi_return`, and what the call makes of a missing `FnAbi`. -/
def rustAbiReturn (abi : Option FnAbi) : RustReturn :=
  match abi with
  | none => .registers
  | some abi => abi.ret.rustReturn

/-- `layout_sensitive`. -/
def layoutSensitive : RustTy → Bool
  | .struct _ _ _ | .union _ _ | .enum _ | .fmtArguments | .fmtArgumentType => true
  | .closure _ _ | .array _ _ => true
  | .tuple fields _ => !fields.isEmpty
  | _ => false

/-- The words a result of `size` bytes is returned as. -/
def blobWords (ret : RustReturn) (size : Nat) : Nat :=
  match ret with
  | .registers => (size + 7) / 8
  | .indirect => max ((size + 7) / 8) 3
  | .pair _ _ => 2

def blobTy (words : Nat) : Ty := .array (.int 64 .unsigned) words

/-- The second scalar of a pair, moved from `x1` to its offset. -/
def moveSecond (ret : RustReturn) (mem : ByteMemory) (slot : Int) : ByteMemory :=
  match ret with
  | .pair offset size => mem.store (slot + offset) (mem.load (slot + 8) size)
  | _ => mem

/-- Memory with the words stored in a slot; an array of words is its bytes. -/
def storeBlob (words : Nat) (r : Returned) (buffer mem : ByteMemory) (slot : Int) :
    Option ByteMemory :=
  (resultLocationForType (blobTy words)).map fun location =>
    mem.store slot ((r.at buffer location).load 0 (8 * words))

/-- The result of a direct call into code compiled by rustc. -/
def directResult (ty : RustTy) (ret : RustReturn) (undef : Ty → Val) (r : Returned)
    (buffer mem : ByteMemory) (slot : Int) : Option Val :=
  if layoutSensitive ty then
    (loadValueFromRealLayout ty).bind fun loader =>
      (storeBlob (blobWords ret (rustcSize ty)) r buffer mem slot).map fun mem =>
        loader undef (moveSecond ret mem slot) slot
  else (convertReturnTy ty).bind fun result => readResult result r buffer

/-- The result of a call in crabbit's own way. -/
def ownResult (ty : RustTy) (r : Returned) (buffer : ByteMemory) : Option Val :=
  (convertReturnTy ty).bind fun result => readResult result r buffer

/-! ## Where results are read from -/

/-- The source of an aggregate of `size` bytes. -/
def aggregateSource (size : Nat) (r : Returned) (buffer : ByteMemory) : ByteMemory :=
  if size ≤ 16 then r.x else buffer

theorem at_aggregateLocation (size : Nat) (r : Returned) (buffer : ByteMemory) :
    r.at buffer (aggregateLocation size) = aggregateSource size r buffer := by
  rw [aggregateLocation, aggregateSource]
  by_cases h8 : size ≤ 8
  · rw [if_pos h8, if_pos (Nat.le_trans h8 (by decide))]
    rfl
  · rw [if_neg h8]
    split <;> rfl

/-- Aggregates, and types without a size, are read by their size only. -/
theorem at_sizedLocation {ty : Ty} {size : Nat} (h : isAggregateTy ty = true ∨ size = 0)
    (r : Returned) (buffer : ByteMemory) :
    r.at buffer (sizedLocation ty size) = aggregateSource size r buffer := by
  rw [sizedLocation]
  by_cases hzero : size = 0
  · rw [if_pos hzero, aggregateSource, if_pos (hzero ▸ Nat.zero_le 16)]
    rfl
  · have haggregate := h.resolve_right hzero
    have hint : is128BitInteger ty = false := by
      cases ty <;> first | rfl | cases haggregate
    have hfp : fpKind ty = none := by
      cases ty <;> first | rfl | cases haggregate
    rw [if_neg hzero, hint, if_neg Bool.false_ne_true, hfp]
    simp only [haggregate, if_true]
    exact at_aggregateLocation size r buffer

theorem stackSizeOf_laidOut {ty : Ty} (h : supported ty = true) :
    stackSizeOf ty = some (laidOut ty).codec.size :=
  (hasLayout_laidOut ty h).1

theorem stackSizeOf_blobTy (words : Nat) : stackSizeOf (blobTy words) = some (8 * words) := by
  rw [stackSizeOf_laidOut rfl]
  rfl

theorem storeBlob_eq (words : Nat) (r : Returned) (buffer mem : ByteMemory) (slot : Int) :
    storeBlob words r buffer mem slot =
      some (mem.store slot ((aggregateSource (8 * words) r buffer).load 0 (8 * words))) := by
  rw [storeBlob, resultLocationForType, stackSizeOf_blobTy, Option.map_some, Option.map_some,
    at_sizedLocation (Or.inl rfl)]

/-- A type whose layout matters is an aggregate, or nothing. -/
theorem convertTy_of_layoutSensitive {ty : RustTy} (h : layoutSensitive ty = true) :
    convertReturnTy ty = some (convertTy ty) ∧
      (isAggregateTy (convertTy ty) = true ∨ convertTy ty = .unit) := by
  cases ty with
  | tuple fields order =>
    cases fields with
    | nil => cases h
    | cons field fields => exact ⟨rfl, Or.inl (by rw [convertTy]; rfl)⟩
  | struct fields order repr => exact ⟨rfl, Or.inl (by rw [convertTy]; rfl)⟩
  | closure fields order => exact ⟨rfl, Or.inl (by rw [convertTy]; rfl)⟩
  | union fields repr => exact ⟨rfl, Or.inl (by rw [convertTy]; rfl)⟩
  | array elem len => exact ⟨rfl, Or.inl (by rw [convertTy]; rfl)⟩
  | fmtArguments => exact ⟨rfl, Or.inl rfl⟩
  | fmtArgumentType => exact ⟨rfl, Or.inl rfl⟩
  | enum layout =>
    refine ⟨rfl, ?_⟩
    rw [convertTy, enumBlobTy]
    split
    · exact Or.inr rfl
    · exact Or.inl rfl
  | _ => cases h

/-- The bytes a value of the type has in the back end. -/
def sizeInBytes (ty : RustTy) : Nat := (laidOut (convertTy ty)).codec.size

theorem ownResult_of_layoutSensitive {ty : RustTy} (horder : WellOrdered ty)
    (h : layoutSensitive ty = true) (r : Returned) (buffer : ByteMemory) :
    ownResult ty r buffer = some ((laidOut (convertTy ty)).codec.read
      (aggregateSource (sizeInBytes ty) r buffer) 0) := by
  obtain ⟨hreturn, haggregate⟩ := convertTy_of_layoutSensitive h
  have hsize : isAggregateTy (convertTy ty) = true ∨ sizeInBytes ty = 0 :=
    haggregate.imp_right fun hunit => by rw [sizeInBytes, hunit]; rfl
  rw [ownResult, hreturn, Option.bind_some, readResult, resultLocationForType,
    stackSizeOf_laidOut (supported_convertTy ty horder), Option.map_some, Option.map_some,
    ← sizeInBytes, at_sizedLocation hsize]

theorem directResult_of_layoutSensitive {ty : RustTy} (h : layoutSensitive ty = true)
    (ret : RustReturn) (undef : Ty → Val) (r : Returned) (buffer mem : ByteMemory) (slot : Int) :
    directResult ty ret undef r buffer mem slot =
      (loadValueFromRealLayout ty).map fun loader =>
        loader undef (moveSecond ret (mem.store slot
          ((aggregateSource (8 * blobWords ret (rustcSize ty)) r buffer).load 0
            (8 * blobWords ret (rustcSize ty)))) slot) slot := by
  rw [directResult, if_pos h, storeBlob_eq]
  cases loadValueFromRealLayout ty <;> rfl

/-- Other results are not returned through memory. -/
theorem directResult_eq_ownResult {ty : RustTy} (horder : WellOrdered ty)
    (h : layoutSensitive ty = false) (ret : RustReturn) (undef : Ty → Val) (r : Returned)
    (own buffer mem : ByteMemory) (slot : Int) :
    directResult ty ret undef r buffer mem slot = ownResult ty r own := by
  rw [directResult, if_neg (by rw [h]; exact Bool.false_ne_true), ownResult]
  have hread : ∀ result, resultLocationForType result ≠ some .indirectX8 →
      readResult result r buffer = readResult result r own := by
    intro result hne
    rw [readResult, readResult]
    cases hlocation : resultLocationForType result with
    | none => rfl
    | some location =>
      cases location with
      | indirectX8 => exact absurd hlocation hne
      | _ => rfl
  cases ty with
  | slice elem =>
    refine hread _ ?_
    have hsize := stackSizeOf_laidOut (supported_convertTy (.slice elem) horder)
    have hzero : (laidOut (convertTy (.slice elem))).codec.size = 0 := by
      rw [convertTy, laidOut]
      exact Nat.mul_zero _
    rw [resultLocationForType, hsize, hzero]
    intro h
    cases h
  | tuple fields order =>
    cases fields with
    | nil => rfl
    | cons => cases h
  | int kind => exact hread _ (by cases kind <;> rintro ⟨⟩)
  | uint kind => exact hread _ (by cases kind <;> rintro ⟨⟩)
  | ref tail => exact hread _ (by rcases tail with _ | _ | _ | _ <;> rintro ⟨⟩)
  | never => rfl
  | struct | union | enum | fmtArguments | fmtArgumentType | closure | array => cases h
  | _ => exact hread _ (by rintro ⟨⟩)

/-! ## Values of a size vary -/

def zeros : ByteMemory := fun _ => 0

def ones : ByteMemory := fun _ => 1

theorem scalar_zeros_ne_ones {n : Nat} (h : n ≠ 0) (a : Int) :
    (MemoryCodec.scalar n).read zeros a ≠ (MemoryCodec.scalar n).read ones a := by
  obtain ⟨n, rfl⟩ := Nat.exists_eq_succ_of_ne_zero h
  intro heq
  have hbits := Val.scalar.inj heq
  rw [ByteMemory.load, ByteMemory.load, Lib.ofLE, Lib.ofLE] at hbits
  have hzero : (zeros a).toNat = 0 := rfl
  have hone : (ones a).toNat = 1 := rfl
  omega

/-- A record varies with each of its parts. -/
theorem readParts_zeros_ne_ones {parts : List MemoryCodec.Part} {part : MemoryCodec.Part}
    (hmem : part ∈ parts) {a : Int}
    (hpart : part.codec.read zeros (a + part.offset) ≠ part.codec.read ones (a + part.offset)) :
    Val.aggregate (MemoryCodec.readParts parts zeros a) ≠
      .aggregate (MemoryCodec.readParts parts ones a) := by
  intro heq
  exact hpart (List.map_inj_left.mp (Val.aggregate.inj heq) part hmem)

theorem exists_sized_part {fields : List Laid} (h : (structLaid fields).codec.size ≠ 0) :
    ∃ laid ∈ fields, laid.codec.size ≠ 0 := by
  by_contra hnone
  refine h (alignTo_eq_zero.mpr ((structLikeEnd_eq_self _ 0).mpr fun layout hlayout => ?_))
  obtain ⟨laid, hlaid, rfl⟩ := List.mem_map.mp hlayout
  by_contra hne
  exact hnone ⟨laid, hlaid, hne⟩

theorem exists_part {fields : List Laid} {laid : Laid} (h : laid ∈ fields) :
    ∃ part ∈ partsFrom fields 0, part.codec = laid.codec := by
  have hmem := List.mem_map_of_mem (f := Laid.codec) h
  rw [← partsFrom_codecs fields 0] at hmem
  exact List.mem_map.mp hmem

mutual

theorem read_zeros_ne_ones : ∀ (ty : Ty) (a : Int), (laidOut ty).codec.size ≠ 0 →
    (laidOut ty).codec.read zeros a ≠ (laidOut ty).codec.read ones a
  | .unit, _, h | .void, _, h | .opaqueStruct, _, h | .vector _ _, _, h => absurd rfl h
  | .int _ _, a, h | .pointer, a, h | .fp64, a, h | .fp32, a, h => scalar_zeros_ne_ones h a
  | .array elem len, a, h => by
    have hlen : len ≠ 0 := by
      rintro rfl
      exact h (Nat.mul_zero _)
    have helem : (laidOut elem).codec.size ≠ 0 := fun hzero => by
      refine h ?_
      show alignTo (laidOut elem).codec.size (laidOut elem).align * len = 0
      rw [alignTo_eq_zero.mpr hzero, Nat.zero_mul]
    exact readParts_zeros_ne_ones
      (List.mem_map.mpr ⟨0, List.mem_range.mpr (Nat.pos_of_ne_zero hlen), rfl⟩)
      (read_zeros_ne_ones elem _ helem)
  | .struct fields, a, h => by
    obtain ⟨laid, hlaid, hsize⟩ := exists_sized_part h
    obtain ⟨part, hpart, hcodec⟩ := exists_part hlaid
    refine readParts_zeros_ne_ones hpart ?_
    rw [hcodec]
    exact reads_zeros_ne_ones fields laid hlaid _ hsize

theorem reads_zeros_ne_ones : ∀ (tys : List Ty), ∀ laid ∈ laidOuts tys, ∀ a : Int,
    laid.codec.size ≠ 0 → laid.codec.read zeros a ≠ laid.codec.read ones a
  | [], _, h, _, _ => absurd h List.not_mem_nil
  | ty :: tys, laid, h, a, hsize => by
    rcases List.mem_cons.mp h with rfl | h
    · exact read_zeros_ne_ones ty a hsize
    · exact reads_zeros_ne_ones tys laid h a hsize

end

end Crabbit.Importer
