/-
  Crabbit.Nvptx.GepForms

  Forms of `getelementptr` on which the readers take LLVM's steps.

  Where every integer fills its alignment, the layouts differ in one place: the
  native lowerings leave a member without a size where the one before it ends.
  Their walk differs at the first index, which goes over the elements of an
  array and names a field of a struct, and at an operand that names a field.
-/

import Crabbit.Nvptx.GepReaders

namespace Crabbit.Nvptx

open Crabbit.Lib (nextMultipleOf)
open Crabbit.Llvm (Value Ty GepIndex GepReading gepReading intAbiAlign abiAlign fieldsAbiAlign
  allocSize fieldsAllocEnd elementOffset indexCount)
open Crabbit.Aarch64 (stackSizeOf stackAlignOf fieldsAlign fieldsEnd fieldsLayout MemoryLayout)

/-! ## Natural layouts -/

mutual

/-- Integers of the type fill their alignment. -/
def Natural : Ty → Prop
  | .int width _ => width ≤ 64 ∧ (width + 7) / 8 = intAbiAlign width
  | .pointer | .fp32 | .fp64 => True
  | .array elem _ => Natural elem
  | .struct fields => NaturalFields fields
  | _ => False

def NaturalFields : List Ty → Prop
  | [] => True
  | field :: fields => Natural field ∧ NaturalFields fields

end

mutual

/-- Members without a size have no alignment either. -/
def Solid : Ty → Prop
  | .array elem _ => Solid elem
  | .struct fields => SolidFields fields
  | _ => True

def SolidFields : List Ty → Prop
  | [] => True
  | field :: fields =>
      Solid field ∧ (allocSize field = some 0 → abiAlign field = some 1) ∧ SolidFields fields

end

theorem alignTo_two_pow (value k : Nat) : alignTo value (2 ^ k) = nextMultipleOf value (2 ^ k) := by
  have hpos : 1 ≤ 2 ^ k := Nat.one_le_two_pow
  unfold alignTo
  split
  · rename_i hone
    rw [show 2 ^ k = 1 by omega, nextMultipleOf, Nat.sub_self, Nat.add_zero, Nat.div_one,
      Nat.mul_one]
  · rw [Lib.roundUp_two_pow, nextMultipleOf, Nat.add_sub_assoc hpos]

theorem nextMultipleOf_of_dvd {value align : Nat} (hpos : 0 < align) (h : align ∣ value) :
    nextMultipleOf value align = value := by
  obtain ⟨q, rfl⟩ := h
  rw [nextMultipleOf, Nat.mul_add_div hpos, Nat.div_eq_of_lt (by omega), Nat.add_zero, Nat.mul_comm]

theorem exists_max_two_pow (i j : Nat) : ∃ k, max (2 ^ i) (2 ^ j) = 2 ^ k := by
  rcases Nat.le_total (2 ^ i) (2 ^ j) with h | h
  · exact ⟨j, Nat.max_eq_right h⟩
  · exact ⟨i, Nat.max_eq_left h⟩

/-- An integer that fills its alignment has the size of a word. -/
theorem intAbiAlign_word {width : Nat} (h : width ≤ 64) :
    ∃ k, k ≤ 3 ∧ intAbiAlign width = 2 ^ k := by
  unfold intAbiAlign
  split
  · exact ⟨0, by omega, rfl⟩
  · split
    · exact ⟨1, by omega, rfl⟩
    · split
      · exact ⟨2, by omega, rfl⟩
      · exact ⟨3, by omega, rfl⟩

theorem int_size {width : Nat} (h : width ≤ 64 ∧ (width + 7) / 8 = intAbiAlign width) :
    max ((width + 7) / 8) 1 = intAbiAlign width ∧
      min (max (max ((width + 7) / 8) 1) 1) 8 = intAbiAlign width := by
  obtain ⟨k, hk, hword⟩ := intAbiAlign_word h.1
  have hpos : 1 ≤ 2 ^ k := Nat.one_le_two_pow
  have hle : 2 ^ k ≤ 2 ^ 3 := Nat.pow_le_pow_right (by decide) hk
  omega

mutual

/-- The alignments are the same everywhere. -/
theorem exists_abiAlign : ∀ ty : Ty, Natural ty → ∃ k, abiAlign ty = some (2 ^ k) ∧
    stackAlignOf ty = some (2 ^ k) ∧ alignOfTy ty = some (2 ^ k)
  | .int width sign, h => by
      obtain ⟨k, -, hword⟩ := intAbiAlign_word h.1
      have hclamp := (int_size h).2
      rw [hword] at hclamp
      exact ⟨k, congrArg some hword, congrArg some hclamp, congrArg some hclamp⟩
  | .pointer, _ => ⟨3, rfl, rfl, rfl⟩
  | .fp32, _ => ⟨2, rfl, rfl, rfl⟩
  | .fp64, _ => ⟨3, rfl, rfl, rfl⟩
  | .array elem _, h => exists_abiAlign elem h
  | .struct fields, h => exists_fieldsAbiAlign fields 0 h

theorem exists_fieldsAbiAlign : ∀ (fields : List Ty) (j : Nat), NaturalFields fields →
    ∃ k, fieldsAbiAlign fields (2 ^ j) = some (2 ^ k) ∧
      fieldsAlign fields (2 ^ j) = some (2 ^ k) ∧ alignOfFields fields (2 ^ j) = some (2 ^ k)
  | [], j, _ => ⟨j, rfl, rfl, rfl⟩
  | field :: fields, j, h => by
      obtain ⟨i, habi, hstack, halign⟩ := exists_abiAlign field h.1
      obtain ⟨m, hmax⟩ := exists_max_two_pow j i
      obtain ⟨k, hrest⟩ := exists_fieldsAbiAlign fields m h.2
      refine ⟨k, ?_⟩
      rw [fieldsAbiAlign, fieldsAlign, alignOfFields, habi, hstack, halign, Option.bind_some,
        Option.bind_some, Option.bind_some, hmax]
      exact hrest

end

mutual

/-- The GPU's sizes are LLVM's. -/
theorem exists_allocSize : ∀ ty : Ty, Natural ty → ∃ size, allocSize ty = some size ∧
    sizeOfTy ty = some size ∧ ∀ align, abiAlign ty = some align → align ∣ size
  | .int width sign, h => by
      have hpos : 0 < intAbiAlign width := by
        obtain ⟨k, -, hword⟩ := intAbiAlign_word h.1
        exact hword ▸ Nat.two_pow_pos k
      refine ⟨intAbiAlign width, ?_, congrArg some (int_size h).1, fun align halign => ?_⟩
      · rw [allocSize, h.2, nextMultipleOf_of_dvd hpos (Nat.dvd_refl _)]
      · exact Option.some.inj halign ▸ Nat.dvd_refl _
  | .pointer, _ => ⟨8, rfl, rfl, fun _ h => Option.some.inj h ▸ Nat.dvd_refl _⟩
  | .fp32, _ => ⟨4, rfl, rfl, fun _ h => Option.some.inj h ▸ Nat.dvd_refl _⟩
  | .fp64, _ => ⟨8, rfl, rfl, fun _ h => Option.some.inj h ▸ Nat.dvd_refl _⟩
  | .array elem len, h => by
      obtain ⟨k, habi, -, halign⟩ := exists_abiAlign elem h
      obtain ⟨size, halloc, hsize, hdvd⟩ := exists_allocSize elem h
      refine ⟨size * len, ?_, ?_, fun align halign => Nat.dvd_mul_right_of_dvd (hdvd align halign) _⟩
      · rw [allocSize, halloc]
        rfl
      · rw [sizeOfTy, hsize, halign, Option.bind_some, Option.map_some, alignTo_two_pow,
          nextMultipleOf_of_dvd (Nat.two_pow_pos k) (hdvd _ habi)]
  | .struct fields, h => by
      obtain ⟨stop, k, hstop, hend, halign⟩ := exists_fieldsAllocEnd fields 0 0 h
      refine ⟨nextMultipleOf stop (2 ^ k), ?_, hend, fun align h => ?_⟩
      · rw [allocSize, hstop, Option.bind_some, show fieldsAbiAlign fields 1 = _ from halign]
        rfl
      · obtain rfl := Option.some.inj (halign.symm.trans h)
        exact Lib.dvd_nextMultipleOf _ _

theorem exists_fieldsAllocEnd : ∀ (fields : List Ty) (offset j : Nat), NaturalFields fields →
    ∃ stop k, fieldsAllocEnd fields offset = some stop ∧
      endOfFields fields offset (2 ^ j) = some (nextMultipleOf stop (2 ^ k)) ∧
      fieldsAbiAlign fields (2 ^ j) = some (2 ^ k)
  | [], offset, j, _ => ⟨offset, j, rfl, congrArg some (alignTo_two_pow offset j), rfl⟩
  | field :: fields, offset, j, h => by
      obtain ⟨i, habi, -, halign⟩ := exists_abiAlign field h.1
      obtain ⟨size, halloc, hsize, -⟩ := exists_allocSize field h.1
      obtain ⟨m, hmax⟩ := exists_max_two_pow j i
      obtain ⟨stop, k, hstop, hend, hfields⟩ :=
        exists_fieldsAllocEnd fields (nextMultipleOf offset (2 ^ i) + size) m h.2
      refine ⟨stop, k, ?_, ?_, ?_⟩
      · rw [fieldsAllocEnd, habi, halloc]
        exact hstop
      · rw [endOfFields, halign, hsize, Option.bind_some, Option.bind_some, alignTo_two_pow, hmax]
        exact hend
      · rw [fieldsAbiAlign, habi, Option.bind_some, hmax]
        exact hfields

end

/-- A solid member without a size is where the one before it ends. -/
theorem SolidFields.end_eq {field : Ty} {fields : List Ty} (h : SolidFields (field :: fields))
    {align size offset : Nat} (habi : abiAlign field = some align)
    (halloc : allocSize field = some size) (hzero : size = 0) :
    nextMultipleOf offset align = offset := by
  have halign : align = 1 :=
    Option.some.inj (habi.symm.trans (h.2.1 (halloc.trans (congrArg some hzero))))
  rw [halign, nextMultipleOf_of_dvd (by decide) (Nat.one_dvd _)]

mutual

/-- The native sizes are LLVM's where members are solid. -/
theorem stackSizeOf_eq : ∀ ty : Ty, Natural ty → Solid ty → stackSizeOf ty = allocSize ty
  | .int width sign, h, _ => by
      obtain ⟨size, halloc, hsize, -⟩ := exists_allocSize (.int width sign) h
      exact hsize.trans halloc.symm
  | .pointer, _, _ => rfl
  | .fp32, _, _ => rfl
  | .fp64, _, _ => rfl
  | .array elem len, h, hsolid => by
      obtain ⟨k, habi, hstack, -⟩ := exists_abiAlign elem h
      obtain ⟨size, halloc, -, hdvd⟩ := exists_allocSize elem h
      rw [stackSizeOf, stackSizeOf_eq elem h hsolid, allocSize, halloc, Option.bind_some, hstack]
      split
      · rename_i hzero
        rw [hzero, Option.map_some, Nat.zero_mul]
      · exact congrArg (fun size => some (size * len))
          ((alignTo_two_pow size k).trans (nextMultipleOf_of_dvd (Nat.two_pow_pos k) (hdvd _ habi)))
  | .struct [], _, _ => rfl
  | .struct (field :: fields), h, hsolid => by
      obtain ⟨k, habi, hstack, -⟩ := exists_fieldsAbiAlign (field :: fields) 0 h
      have habi : fieldsAbiAlign (field :: fields) 1 = some (2 ^ k) := habi
      have hstack : fieldsAlign (field :: fields) 1 = some (2 ^ k) := hstack
      rw [stackSizeOf, fieldsEnd_eq (field :: fields) 0 h hsolid, hstack, allocSize, habi]
      refine congrArg (Option.bind _) (funext fun stop => ?_)
      exact congrArg some (alignTo_two_pow stop k)

theorem fieldsEnd_eq : ∀ (fields : List Ty) (offset : Nat), NaturalFields fields →
    SolidFields fields → fieldsEnd fields offset = fieldsAllocEnd fields offset
  | [], _, _, _ => rfl
  | field :: fields, offset, h, hsolid => by
      obtain ⟨k, habi, hstack, -⟩ := exists_abiAlign field h.1
      obtain ⟨size, halloc, -, -⟩ := exists_allocSize field h.1
      rw [fieldsEnd, fieldsAllocEnd, stackSizeOf_eq field h.1 hsolid.1, halloc, habi, hstack,
        Option.bind_some, Option.bind_some, Option.bind_some, Option.bind_some]
      split
      · rename_i hzero
        rw [fieldsEnd_eq fields offset h.2 hsolid.2.2, hsolid.end_eq habi halloc hzero, hzero,
          Nat.add_zero]
      · rw [show Aarch64.alignTo offset (2 ^ k) = _ from alignTo_two_pow offset k]
        exact fieldsEnd_eq fields _ h.2 hsolid.2.2

end

/-! ## Fields -/

/-- The field at an index is where LLVM has it, on the GPU. -/
theorem structFieldOffset_eq (fields : List Ty) (index offset : Nat) (h : NaturalFields fields) :
    structFieldOffset fields index offset = elementOffset fields index offset := by
  induction fields generalizing index offset with
  | nil => rfl
  | cons field fields ih =>
      obtain ⟨k, habi, -, halign⟩ := exists_abiAlign field h.1
      obtain ⟨size, halloc, hsize, -⟩ := exists_allocSize field h.1
      rw [structFieldOffset, halign, Option.bind_some, alignTo_two_pow]
      cases index with
      | zero =>
          rw [if_pos rfl, elementOffset, habi]
          rfl
      | succ index =>
          rw [if_neg (Nat.succ_ne_zero index), hsize, Option.bind_some, Nat.add_sub_cancel,
            ih index _ h.2, elementOffset, habi, halloc]
          rfl

/-- And in native code. -/
theorem fieldsLayout_getElem? (fields : List Ty) (index offset : Nat) (h : NaturalFields fields)
    (hsolid : SolidFields fields) :
    ((fieldsLayout fields offset).bind fun layout => layout[index]?) =
      elementOffset fields index offset ∧ (fieldsLayout fields offset).isSome := by
  induction fields generalizing index offset with
  | nil => exact ⟨rfl, rfl⟩
  | cons field fields ih =>
      obtain ⟨k, habi, hstack, -⟩ := exists_abiAlign field h.1
      obtain ⟨size, halloc, -, -⟩ := exists_allocSize field h.1
      -- The field begins at its alignment, also where it is empty.
      have hlayout : fieldsLayout (field :: fields) offset =
          (fieldsLayout fields (nextMultipleOf offset (2 ^ k) + size)).map
            ((nextMultipleOf offset (2 ^ k), field) :: ·) := by
        rw [fieldsLayout, stackSizeOf_eq field h.1 hsolid.1, halloc, hstack, Option.bind_some,
          Option.bind_some, show Aarch64.alignTo offset (2 ^ k) = _ from alignTo_two_pow offset k]
        split
        · rename_i hzero
          rw [hsolid.end_eq habi halloc hzero, hzero, Nat.add_zero]
        · rfl
      obtain ⟨layout, hrest⟩ := Option.isSome_iff_exists.mp
        (ih index (nextMultipleOf offset (2 ^ k) + size) h.2 hsolid.2.2).2
      rw [hlayout, hrest]
      refine ⟨?_, rfl⟩
      cases index with
      | zero =>
          rw [elementOffset, habi]
          rfl
      | succ index =>
          have hnext := (ih index (nextMultipleOf offset (2 ^ k) + size) h.2 hsolid.2.2).1
          rw [hrest] at hnext
          rw [elementOffset, habi, halloc]
          exact hnext

/-- A field is as natural and as solid as its struct. -/
theorem elementOffset_natural {fields : List Ty} {index offset : Nat} {found : Nat × Ty}
    (h : elementOffset fields index offset = some found) (hnatural : NaturalFields fields) :
    fields[index]? = some found.2 ∧ Natural found.2 ∧ (SolidFields fields → Solid found.2) := by
  induction fields generalizing index offset with
  | nil => cases h
  | cons field fields ih =>
      cases index with
      | zero =>
          obtain ⟨align, -, rfl⟩ := Option.map_eq_some_iff.mp h
          exact ⟨rfl, hnatural.1, fun hsolid => hsolid.1⟩
      | succ index =>
          obtain ⟨align, -, h⟩ := Option.bind_eq_some_iff.mp h
          obtain ⟨size, -, h⟩ := Option.bind_eq_some_iff.mp h
          obtain ⟨hget, hfound, hsolid⟩ := ih h hnatural.2
          exact ⟨hget, hfound, fun h => hsolid h.2.2⟩

/-! ## The GPU -/

/-- The indices are integers. -/
def IntegerIndices (indices : List GepIndex) : Prop :=
  ∀ v ∈ indices.flatMap GepIndex.operands, ∃ width sign, v.ty = .int width sign

theorem IntegerIndices.cons {index : GepIndex} {rest : List GepIndex}
    (h : IntegerIndices (index :: rest)) :
    (∀ v ∈ index.operands, ∃ width sign, v.ty = .int width sign) ∧ IntegerIndices rest := by
  unfold IntegerIndices at h
  rw [List.flatMap_cons] at h
  exact ⟨fun v hv => h v (List.mem_append_left _ hv), fun v hv => h v (List.mem_append_right _ hv)⟩

theorem gpuReading_step_eq {bits : Value → Nat} {index : GepIndex} {elem : Ty}
    (hindex : ∀ v ∈ index.operands, ∃ width sign, v.ty = .int width sign) (h : Natural elem) :
    (gpuReading bits).step index elem = (gepReading bits).step index elem := by
  obtain ⟨k, habi, -, halign⟩ := exists_abiAlign elem h
  obtain ⟨size, halloc, hsize, hdvd⟩ := exists_allocSize elem h
  have hstride : strideOf elem = allocSize elem := by
    rw [strideOf, hsize, halign, halloc, Option.bind_some, Option.map_some, alignTo_two_pow,
      nextMultipleOf_of_dvd (Nat.two_pow_pos k) (hdvd _ habi)]
  have hcount : indexCount bits index = some (indexBits bits index) := by
    cases index with
    | constant c => rfl
    | value v =>
        obtain ⟨width, sign, hty⟩ := hindex v List.mem_cons_self
        simp only [indexCount, indexBits, hty, widthOf, Option.getD_some, sextBits_eq_signExtend]
  rw [gpuReading_step, hstride]
  show _ = (indexCount bits index).bind _
  rw [hcount]
  rfl

theorem gpuReading_descend_eq {bits : Value → Nat} (indices : List GepIndex) {ty : Ty}
    (hindices : IntegerIndices indices) (h : Natural ty) :
    (gpuReading bits).descend ty indices = (gepReading bits).descend ty indices := by
  induction indices generalizing ty with
  | nil => cases ty <;> rfl
  | cons index rest ih =>
      obtain ⟨hindex, hrest⟩ := hindices.cons
      cases ty
      case array elem len =>
        have helem : Natural elem := h
        rw [GepReading.descend, GepReading.descend, gpuReading_step_eq hindex helem, ih hrest helem]
      case struct fields =>
        rw [GepReading.descend, GepReading.descend]
        have hfield : (gpuReading bits).field fields ((gpuReading bits).name index) =
            (gepReading bits).field fields ((gepReading bits).name index) := by
          cases index <;> exact structFieldOffset_eq fields _ 0 h
        rw [hfield]
        cases hfound : (gepReading bits).field fields ((gepReading bits).name index) with
        | none => rfl
        | some found =>
            rw [Option.bind_some, Option.bind_some,
              ih hrest (elementOffset_natural hfound h).2.1]
      all_goals rfl

/-- **The GPU** takes LLVM's steps over natural types. -/
theorem gpu_steps_agree (k : Kernel) (env : Env) (reg : Value → BitVec 64) {g : GepSite}
    (hindices : IntegerIndices g.indices) (h : Natural g.srcElemTy) :
    StepsAgree k env reg g .gpu := by
  show (gpuReading env.bits).amounts g.srcElemTy g.indices = _
  cases hlist : g.indices with
  | nil => rfl
  | cons index rest =>
      rw [hlist] at hindices
      rw [GepReading.amounts, GepReading.amounts, gpuReading_step_eq hindices.cons.1 h,
        gpuReading_descend_eq rest hindices.cons.2 h]

/-! ## Native code -/

/-- Treating the first index like the later ones goes over the type: it is no
    array, and no constant names a field of it. -/
def FirstStrides : Ty → List GepIndex → Prop
  | .array .., _ :: _ | .struct _, .constant _ :: _ => False
  | _, _ => True

/-- The later indices name fields by constants of the operation itself. -/
def NamesFields : Ty → List GepIndex → Prop
  | .array elem _, _ :: rest => NamesFields elem rest
  | .struct fields, .constant c :: rest => ∀ field, fields[c]? = some field → NamesFields field rest
  | .struct _, .value _ :: _ => False
  | _, _ => True

/-- The register of an index holds what it counts. -/
def SignExtended (bits : Value → Nat) (reg : Value → BitVec 64) (indices : List GepIndex) : Prop :=
  ∀ v ∈ indices.flatMap GepIndex.operands, indexCount bits (.value v) = some (reg v)

/-- The operation is one the native lowerings take no branch of their own on. -/
structure NativePlain (bits : Value → Nat) (reg : Value → BitVec 64) (g : GepSite) : Prop where
  natural : Natural g.srcElemTy
  solid : Solid g.srcElemTy
  first : FirstStrides g.srcElemTy g.indices
  fields : NamesFields g.srcElemTy g.indices.tail
  signs : SignExtended bits reg g.indices

section Native

variable {bits : Value → Nat} {reg : Value → BitVec 64}

theorem SignExtended.cons {index : GepIndex} {rest : List GepIndex}
    (h : SignExtended bits reg (index :: rest)) (elem : Ty) :
    (gepReading bits).step index elem = (allocSize elem).map (Aarch64.indexAmount reg index) ∧
      SignExtended bits reg rest := by
  unfold SignExtended at h
  rw [List.flatMap_cons] at h
  refine ⟨?_, fun v hv => h v (List.mem_append_right _ hv)⟩
  cases index with
  | constant c => rfl
  | value v =>
      show (indexCount bits (.value v)).bind _ = _
      rw [h v (List.mem_append_left _ List.mem_cons_self)]
      rfl

theorem indexedElement_array {elem : Ty} (len : Nat) (h : Natural elem) (hsolid : Solid elem) :
    Aarch64.memoryLayout.indexedElement (.array elem len) =
      (allocSize elem).map fun size => (elem, size) := by
  obtain ⟨k, habi, hstack, -⟩ := exists_abiAlign elem h
  obtain ⟨size, halloc, -, hdvd⟩ := exists_allocSize elem h
  show (stackSizeOf elem).bind _ = _
  rw [stackSizeOf_eq elem h hsolid, halloc, Option.bind_some]
  split
  · rename_i hzero
    rw [hzero]
    rfl
  · show (stackAlignOf elem).map _ = _
    rw [hstack, Option.map_some,
      show Aarch64.alignTo size (2 ^ k) = _ from alignTo_two_pow size k,
      nextMultipleOf_of_dvd (Nat.two_pow_pos k) (hdvd _ habi)]
    rfl

theorem structFieldOffset_const {fields : List Ty} (c : Nat) (h : NaturalFields fields)
    (hsolid : SolidFields fields) : Aarch64.memoryLayout.structFieldOffset (.struct fields) (some c) =
      (elementOffset fields c 0).map some := by
  obtain ⟨hget, hsome⟩ := fieldsLayout_getElem? fields c 0 h hsolid
  obtain ⟨layout, hlayout⟩ := Option.isSome_iff_exists.mp hsome
  show (fieldsLayout fields 0).bind _ = _
  rw [← hget, hlayout]
  rfl

/-- Later indices descend as LLVM's do. -/
theorem gepAmounts_descend (indices : List GepIndex) {ty : Ty} {steps : List (BitVec 64)}
    (hnatural : Natural ty) (hsolid : Solid ty) (hfields : NamesFields ty indices)
    (hsigns : SignExtended bits reg indices)
    (h : (gepReading bits).descend ty indices = some steps) :
    Aarch64.memoryLayout.gepAmounts reg ty indices = some steps := by
  induction indices generalizing ty steps with
  | nil => cases ty <;> exact h
  | cons index rest ih =>
      cases ty
      case array elem len =>
        have hnatural : Natural elem := hnatural
        have hsolid : Solid elem := hsolid
        obtain ⟨hstep, hsigns⟩ := hsigns.cons elem
        obtain ⟨amount, hamount, h⟩ := Option.bind_eq_some_iff.mp h
        obtain ⟨tail, htail, rfl⟩ := Option.map_eq_some_iff.mp h
        obtain ⟨size, hsize, rfl⟩ := Option.map_eq_some_iff.mp (hstep.symm.trans hamount)
        have hnofield : Aarch64.memoryLayout.structFieldOffset (.array elem len)
            (Aarch64.indexConst index) = some none := by
          cases index <;> rfl
        rw [MemoryLayout.gepAmounts, hnofield, Option.bind_some]
        simp only [indexedElement_array len hnatural hsolid, hsize, Option.map_some,
          Option.bind_some, ih hnatural hsolid hfields hsigns htail]
      case struct fields =>
        cases index with
        | value v => exact absurd hfields id
        | constant c =>
            obtain ⟨found, hfound, h⟩ := Option.bind_eq_some_iff.mp h
            obtain ⟨tail, htail, rfl⟩ := Option.map_eq_some_iff.mp h
            have hfound : elementOffset fields c 0 = some found := hfound
            obtain ⟨hget, hfoundNatural, hfoundSolid⟩ := elementOffset_natural hfound hnatural
            rw [MemoryLayout.gepAmounts, show Aarch64.indexConst (.constant c) = some c from rfl,
              structFieldOffset_const c hnatural hsolid, hfound, Option.map_some, Option.bind_some]
            simp only [ih hfoundNatural (hfoundSolid hsolid) (hfields _ hget)
              (hsigns.cons .pointer).2 htail, Option.map_some]
      all_goals cases h

/-- **Native code** takes LLVM's steps on plain operations. -/
theorem native_steps_agree (k : Kernel) {env : Env} {g : GepSite}
    (hplain : NativePlain env.bits reg g) {steps : List (BitVec 64)}
    (h : (gepReading env.bits).amounts g.srcElemTy g.indices = some steps) :
    StepsAgree k env reg g .aarch64 ∧
      ((X86.memoryLayout.gepAmounts reg g.srcElemTy g.indices).isSome →
        StepsAgree k env reg g .x86_64) := by
  obtain ⟨hnatural, hsolid, hfirst, hfields, hsigns⟩ := hplain
  have haarch64 : Aarch64.memoryLayout.gepAmounts reg g.srcElemTy g.indices = some steps := by
    cases hlist : g.indices with
    | nil =>
        rw [hlist] at h
        exact h
    | cons index rest =>
        rw [hlist] at h hfirst hfields hsigns
        obtain ⟨hstep, hsigns⟩ := hsigns.cons g.srcElemTy
        obtain ⟨amount, hamount, h⟩ := Option.bind_eq_some_iff.mp h
        obtain ⟨tail, htail, rfl⟩ := Option.map_eq_some_iff.mp h
        obtain ⟨size, hsize, rfl⟩ := Option.map_eq_some_iff.mp (hstep.symm.trans hamount)
        have hrest := gepAmounts_descend rest hnatural hsolid hfields hsigns htail
        have hstack := (stackSizeOf_eq g.srcElemTy hnatural hsolid).trans hsize
        -- The first index is over the type itself.
        have hfirst : Aarch64.memoryLayout.structFieldOffset g.srcElemTy
              (Aarch64.indexConst index) = some none ∧
            Aarch64.memoryLayout.indexedElement g.srcElemTy = some (g.srcElemTy, size) := by
          have helement : (stackSizeOf g.srcElemTy).map (fun size => (g.srcElemTy, size)) =
              some (g.srcElemTy, size) := by
            rw [hstack]
            rfl
          generalize g.srcElemTy = ty at hnatural hfirst helement
          cases ty
          case array => exact absurd hfirst id
          case struct =>
            cases index with
            | constant c => exact absurd hfirst id
            | value v => exact ⟨rfl, helement⟩
          case int => exact ⟨by cases index <;> rfl, helement⟩
          case pointer => exact ⟨by cases index <;> rfl, helement⟩
          case fp32 => exact ⟨by cases index <;> rfl, helement⟩
          case fp64 => exact ⟨by cases index <;> rfl, helement⟩
          all_goals exact absurd hnatural id
        rw [MemoryLayout.gepAmounts, hfirst.1, Option.bind_some]
        simp only [hfirst.2, Option.bind_some, hrest, Option.map_some]
  refine ⟨haarch64.trans h.symm, fun hsome => ?_⟩
  obtain ⟨amounts, hamounts⟩ := Option.isSome_iff_exists.mp hsome
  have heq := Option.some.inj
    ((X86.gepAmounts_aarch64 g.indices hamounts).symm.trans haarch64)
  exact hamounts.trans ((congrArg some heq).trans h.symm)

end Native

end Crabbit.Nvptx
