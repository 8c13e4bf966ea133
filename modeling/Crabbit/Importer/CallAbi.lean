/-
  Crabbit.Importer.CallAbi

  How the importer passes the arguments of a call (`importer/abi.rs`): its own
  way, which goes by the converted type, and the way of rustc's Rust ABI, which
  goes by the pass mode of the callee's `FnAbi`.

  Both ways pass parts of the value as it lies in memory.  A `Piece` names such
  a part, and a way of passing a type is its list of pieces.
-/

import Crabbit.Importer.FieldAccess

namespace Crabbit.Importer

open Crabbit.Lib (ByteMemory MemoryCodec Val toLE ofLE)
open Crabbit.Llvm (Ty)

/-! ## Sizes -/

/-- `clamp(1, 8)` of the size of a scalar. -/
def crabbitScalarAlign (size : Nat) : Nat := min (max size 1) 8

mutual

/-- `crabbit_ty_size`. -/
def crabbitTySize : Ty → Option Nat
  | .int width _ => some (max ((width + 7) / 8) 1)
  | .pointer | .fp64 => some 8
  | .fp32 => some 4
  | .unit => some 0
  | .array elem len => (crabbitTySize elem).bind fun size =>
      (crabbitTyAlign elem).map fun align => alignTo size align * len
  | .struct fields => (crabbitFieldsLayout fields 0 1).map fun layout => alignTo layout.1 layout.2
  | .opaqueStruct | .void | .vector _ _ => none

/-- `crabbit_ty_align`. -/
def crabbitTyAlign : Ty → Option Nat
  | .unit => some 1
  | .array elem _ => crabbitTyAlign elem
  | .struct fields => crabbitFieldsAlign fields 1
  | .int width _ => some (crabbitScalarAlign (max ((width + 7) / 8) 1))
  | .pointer | .fp64 => some (crabbitScalarAlign 8)
  | .fp32 => some (crabbitScalarAlign 4)
  | .opaqueStruct | .void | .vector _ _ => none

/-- The running size and alignment of a struct; zero-sized fields are skipped. -/
def crabbitFieldsLayout : List Ty → Nat → Nat → Option (Nat × Nat)
  | [], size, align => some (size, align)
  | field :: fields, size, align => (crabbitTySize field).bind fun fieldSize =>
      if fieldSize = 0 then crabbitFieldsLayout fields size align
      else (crabbitTyAlign field).bind fun fieldAlign =>
        crabbitFieldsLayout fields (alignTo size fieldAlign + fieldSize) (max align fieldAlign)

def crabbitFieldsAlign : List Ty → Nat → Option Nat
  | [], align => some align
  | field :: fields, align => (crabbitTySize field).bind fun fieldSize =>
      if fieldSize = 0 then crabbitFieldsAlign fields align
      else (crabbitTyAlign field).bind fun fieldAlign =>
        crabbitFieldsAlign fields (max align fieldAlign)

end

/-! ## crabbit's own way -/

/-- `is_simple_abi_scalar_ty`. -/
def isSimpleAbiScalarTy : Ty → Bool
  | .int _ _ | .fp32 | .fp64 | .pointer => true
  | _ => false

/-- A scalar in a value: the indices that lead to it, and its type. -/
abbrev AbiLeaf := List Nat × Ty

mutual

/-- `collect_simple_abi_fields`. -/
def collectSimpleAbiFields : Ty → List Nat → Option (List AbiLeaf)
  | .unit, _ => some []
  | .struct fields, path => collectAbiLeaves fields 0 path
  | .int width sign, path => some [(path, .int width sign)]
  | .fp32, path => some [(path, .fp32)]
  | .fp64, path => some [(path, .fp64)]
  | .pointer, path => some [(path, .pointer)]
  | .array _ _, _ | .opaqueStruct, _ | .void, _ | .vector _ _, _ => none

/-- The fields of a struct from `index` on. -/
def collectAbiLeaves : List Ty → Nat → List Nat → Option (List AbiLeaf)
  | [], _, _ => some []
  | field :: fields, index, path =>
      (collectSimpleAbiFields field (path ++ [index])).bind fun leaves =>
        (collectAbiLeaves fields (index + 1) path).map fun rest => leaves ++ rest

end

/-- `simple_abi_leaves_for_ty`. -/
def simpleAbiLeavesForTy (ty : Ty) : Option (List AbiLeaf) := collectSimpleAbiFields ty []

inductive ArgAbi where
  /-- Flattened into scalar leaves passed directly. -/
  | leaves (leaves : List AbiLeaf)
  /-- Copied to a stack temporary and passed by pointer. -/
  | indirect

def isAggregateTy : Ty → Bool
  | .struct _ | .opaqueStruct | .array _ _ => true
  | _ => false

/-- `arg_abi_for_ty` on an aggregate of `size` bytes. -/
def aggregateArgAbi (ty : Ty) (size : Nat) : ArgAbi :=
  if 16 < size then .indirect
  else match simpleAbiLeavesForTy ty with
    | some leaves => .leaves leaves
    | none => .indirect

/-- `arg_abi_for_ty`. -/
def argAbiForTy (ty : Ty) : Option ArgAbi :=
  if crabbitTySize ty = some 0 then some (.leaves [])
  else if isAggregateTy ty then (crabbitTySize ty).map (aggregateArgAbi ty)
  else (simpleAbiLeavesForTy ty).map .leaves

/-- One ABI-level argument of a call: a scalar, or the address of a copy of a
    value. -/
inductive AbiArg where
  | scalar (ty : Ty) (v : Val)
  | pointer (slot : Int) (v : Val)

/-- A Rust-level argument: its value, and the stack slot its lowering may
    allocate, in memory as it is then. -/
structure Argument where
  value : Val
  mem : ByteMemory
  slot : Int

/-- `lower_abi_call_arg` of a value of the type. -/
def lowerAbiCallArg (ty : Ty) (arg : Argument) : Option (List AbiArg) :=
  (argAbiForTy ty).map fun abi =>
    match abi with
    | .indirect => [.pointer arg.slot arg.value]
    | .leaves leaves =>
        leaves.map fun leaf => .scalar leaf.2 (leaf.1.foldl extractValue arg.value)

/-! ## rustc's way -/

/-- A primitive of rustc's layouts. -/
inductive Primitive where
  | int (bits : Nat)
  | f32
  | f64
  /-- `f16` and `f128`, of so many bytes. -/
  | otherFloat (size : Nat)
  | pointer
  deriving DecidableEq

def Primitive.size : Primitive → Nat
  | .int bits => bits / 8
  | .f32 => 4
  | .f64 => 8
  | .otherFloat size => size
  | .pointer => 8

/-- `BackendRepr::ScalarPair`. -/
structure ScalarPair where
  a : Primitive
  b : Primitive
  bOffset : Nat
  deriving DecidableEq

/-- `PassMode`, with what the importer reads of the layout it is about. -/
inductive PassMode where
  | ignore
  /-- `BackendRepr::Scalar`, if that is the representation. -/
  | direct (repr : Option Primitive)
  | pair (repr : Option ScalarPair)
  /-- To integers, of a value of so many bytes. -/
  | cast (size : Nat)
  /-- `plain` when there is no metadata and it is not on the stack. -/
  | indirect (plain : Bool)
  deriving DecidableEq

/-- `FnAbi`. -/
structure FnAbi where
  cVariadic : Bool
  args : List PassMode
  ret : PassMode
  deriving DecidableEq

inductive RustArg where
  /-- No presence (a zero-sized argument). -/
  | ignore
  /-- By reference to a copy of the value. -/
  | indirect
  /-- As these scalars, read from the value's bytes at their offsets. -/
  | scalars (parts : List (Nat × Ty))
  /-- As one 64-bit register, of which the callee reads the bytes of the value;
      the lowering itself does not look at how many these are. -/
  | cast (size : Nat)

/-- `scalar_abi_ty`. -/
def scalarAbiTy : Primitive → Option Ty
  | .int bits => some (.int bits .signless)
  | .f32 => some .fp32
  | .f64 => some .fp64
  | .otherFloat _ => none
  | .pointer => some .pointer

/-- The mode of one argument in `rust_abi_args`. -/
def rustArg : PassMode → Option RustArg
  | .ignore => some .ignore
  | .indirect plain => if plain then some .indirect else none
  | .cast size => if size ≤ 8 then some (.cast size) else none
  | .direct repr => repr.bind fun scalar => (scalarAbiTy scalar).map fun ty => .scalars [(0, ty)]
  | .pair repr => repr.bind fun pair => (scalarAbiTy pair.a).bind fun a =>
      (scalarAbiTy pair.b).map fun b => .scalars [(0, a), (pair.bOffset, b)]

/-- The arguments of `rust_abi_args`, all or none. -/
def rustArgs : List PassMode → Option (List RustArg)
  | [] => some []
  | mode :: modes => (rustArg mode).bind fun arg => (rustArgs modes).map fun args => arg :: args

/-- `rust_abi_args`; there is no `FnAbi` when rustc cannot compute it. -/
def rustAbiArgs (abi : Option FnAbi) : Option (List RustArg) :=
  abi.bind fun abi => if abi.cVariadic then none else rustArgs abi.args

/-- The scalars read from the slot of a value that goes through memory. -/
def RustArg.slotScalars : RustArg → List (Nat × Ty)
  | .scalars parts => parts
  | _ => [(0, .int 64 .signless)]

/-- A value that already is the one scalar. -/
def isScalarItself (ty : Ty) : RustArg → Bool
  | .scalars [_] => !isAggregateTy ty
  | _ => false

/-- `lower_rust_abi_call_arg` through memory: the value is stored in a slot of
    its size in words, and the registers are read back from its bytes. -/
def lowerThroughMemory (ty : Ty) (arg : Argument) (abi : RustArg) : List AbiArg :=
  abi.slotScalars.map fun scalar => .scalar scalar.2
    ((laidOut scalar.2).codec.read ((laidOut ty).codec.write arg.value arg.mem arg.slot)
      (arg.slot + scalar.1))

/-- `lower_rust_abi_call_arg` of a value of the type. -/
def lowerRustAbiCallArg (ty : Ty) (arg : Argument) (abi : RustArg) : Option (List AbiArg) :=
  match abi with
  | .ignore => some []
  | .indirect => some [.pointer arg.slot arg.value]
  | abi =>
      if isScalarItself ty abi then some [.scalar ty arg.value]
      else (crabbitTySize ty).map fun _ => lowerThroughMemory ty arg abi

/-! ## What the callee finds -/

def isFp : Ty → Bool
  | .fp32 | .fp64 => true
  | _ => false

/-- An argument in the callee's hands: a register of one of the files, as far as
    its bytes are defined, or memory with a value in it. -/
inductive Passed where
  | register (fp : Bool) (bytes : List UInt8)
  | memory (slot : Int) (v : Val)

/-- A scalar defines as many bytes of its register as it is wide. -/
def AbiArg.passed : AbiArg → Passed
  | .scalar ty (.scalar bits) => .register (isFp ty) (toLE (laidOut ty).codec.size bits)
  | .scalar ty _ => .register (isFp ty) []
  | .pointer slot v => .memory slot v

/-- The low bytes of a register. -/
def Passed.low (size : Nat) : Passed → Passed
  | .register fp bytes => .register fp (bytes.take size)
  | .memory slot v => .memory slot v

/-- What a callee compiled by rustc takes of an argument: of a value cast to an
    integer, the bytes the value has. -/
def RustArg.received (abi : RustArg) (arg : AbiArg) : Passed :=
  match abi with
  | .cast size => arg.passed.low size
  | _ => arg.passed

/-! ## Pieces -/

/-- A part of a value in memory: the bytes of a scalar, passed in a register of
    one of the files, or all of it, by reference. -/
inductive Piece where
  | register (offset : Nat) (fp : Bool) (size : Nat)
  | reference
  deriving DecidableEq

/-- The part, of the value of the type in the slot. -/
def Piece.found (ty : Ty) (mem : ByteMemory) (slot : Int) : Piece → Passed
  | .register offset fp size => .register fp (mem.load (slot + offset) size)
  | .reference => .memory slot ((laidOut ty).codec.read mem slot)

/-- Whether the part has bytes. -/
def Piece.sized : Piece → Bool
  | .register _ _ size => size != 0
  | .reference => true

/-- The offset and the type of a field of a struct. -/
def fieldAt (ty : Ty) (index : Nat) : Option (Nat × Ty) :=
  match ty with
  | .struct fields =>
      (structLikeFieldOffsets (fields.map fun field => (laidOut field).layout) 0)[index]?.bind
        fun offset => fields[index]?.map fun field => (offset, field)
  | _ => none

/-- The offset and the type of what a path leads to. -/
def pathTo : Ty → List Nat → Option (Nat × Ty)
  | ty, [] => some (0, ty)
  | ty, index :: path => (fieldAt ty index).bind fun field =>
      (pathTo field.2 path).map fun place => (field.1 + place.1, place.2)

def scalarPiece (offset : Nat) (ty : Ty) : Piece :=
  .register offset (isFp ty) (laidOut ty).codec.size

/-- The pieces crabbit passes a type as. -/
def crabbitPieces (ty : Ty) : Option (List Piece) :=
  (argAbiForTy ty).map fun abi =>
    match abi with
    | .indirect => [.reference]
    | .leaves leaves =>
        leaves.map fun leaf => scalarPiece (((pathTo ty leaf.1).map Prod.fst).getD 0) leaf.2

/-- The pieces rustc passes it as. -/
def rustPieces (ty : Ty) (abi : RustArg) : List Piece :=
  match abi with
  | .ignore => []
  | .indirect => [.reference]
  | .cast size => [.register 0 false size]
  | .scalars parts =>
      if isScalarItself ty abi then [scalarPiece 0 ty]
      else parts.map fun part => scalarPiece part.1 part.2

/-! ## crabbit passes its pieces -/

theorem fieldAt_eq_some {ty field : Ty} {index offset : Nat}
    (h : fieldAt ty index = some (offset, field)) : ∃ fields, ty = .struct fields ∧
      fields[index]? = some field ∧
      (structLikeFieldOffsets (fields.map fun field => (laidOut field).layout) 0)[index]? =
        some offset := by
  cases ty
  case struct fields =>
    obtain ⟨o, ho, h⟩ := Option.bind_eq_some_iff.mp h
    obtain ⟨f, hf, h⟩ := Option.map_eq_some_iff.mp h
    cases h
    exact ⟨fields, rfl, hf, ho⟩
  all_goals cases h

/-- What a path leads to in a value in memory is in memory at its offset. -/
theorem extract_pathTo {path : List Nat} {ty target : Ty} {offset : Nat}
    (h : pathTo ty path = some (offset, target)) (mem : ByteMemory) (a : Int) :
    path.foldl extractValue ((laidOut ty).codec.read mem a) =
      (laidOut target).codec.read mem (a + offset) := by
  induction path generalizing ty a offset with
  | nil =>
    rw [pathTo] at h
    cases h
    rw [List.foldl_nil, Int.natCast_zero, Int.add_zero]
  | cons index path ih =>
    rw [pathTo] at h
    obtain ⟨⟨o, field⟩, hat, hrest⟩ := Option.bind_eq_some_iff.mp h
    obtain ⟨place, hplace, heq⟩ := Option.map_eq_some_iff.mp hrest
    obtain ⟨rfl, rfl⟩ := Prod.mk.inj heq
    obtain ⟨fields, rfl, hfield, ho⟩ := fieldAt_eq_some hat
    rw [List.foldl_cons, extractValue_read hfield ho, ih hplace, Nat.cast_add, Int.add_assoc]

theorem exists_fieldAt {fields : List Ty} {index : Nat} {field : Ty}
    (h : fields[index]? = some field) : ∃ offset,
      fieldAt (.struct fields) index = some (offset, field) := by
  have hlt : index < (structLikeFieldOffsets
      (fields.map fun field => (laidOut field).layout) 0).length := by
    rw [length_structLikeFieldOffsets, List.length_map]
    exact (List.getElem?_eq_some_iff.mp h).1
  obtain ⟨offset, ho⟩ : ∃ offset, (structLikeFieldOffsets
      (fields.map fun field => (laidOut field).layout) 0)[index]? = some offset :=
    ⟨_, List.getElem?_eq_getElem hlt⟩
  refine ⟨offset, ?_⟩
  simp only [fieldAt]
  rw [ho, h, Option.bind_some, Option.map_some]

mutual

/-- A leaf is a scalar, at the end of a path. -/
theorem mem_collectSimpleAbiFields : ∀ (ty : Ty) {path : List Nat} {leaves : List AbiLeaf},
    collectSimpleAbiFields ty path = some leaves → ∀ leaf ∈ leaves,
      isSimpleAbiScalarTy leaf.2 = true ∧
        ∃ inner offset, leaf.1 = path ++ inner ∧ pathTo ty inner = some (offset, leaf.2)
  | .unit, _, _, h, leaf, hleaf => by
    rw [collectSimpleAbiFields] at h
    cases h
    exact absurd hleaf List.not_mem_nil
  | .int width sign, path, _, h, leaf, hleaf => by
    rw [collectSimpleAbiFields] at h
    cases h
    rw [List.mem_singleton.mp hleaf]
    exact ⟨rfl, [], 0, (List.append_nil path).symm, rfl⟩
  | .fp32, path, _, h, leaf, hleaf => by
    rw [collectSimpleAbiFields] at h
    cases h
    rw [List.mem_singleton.mp hleaf]
    exact ⟨rfl, [], 0, (List.append_nil path).symm, rfl⟩
  | .fp64, path, _, h, leaf, hleaf => by
    rw [collectSimpleAbiFields] at h
    cases h
    rw [List.mem_singleton.mp hleaf]
    exact ⟨rfl, [], 0, (List.append_nil path).symm, rfl⟩
  | .pointer, path, _, h, leaf, hleaf => by
    rw [collectSimpleAbiFields] at h
    cases h
    rw [List.mem_singleton.mp hleaf]
    exact ⟨rfl, [], 0, (List.append_nil path).symm, rfl⟩
  | .struct fields, path, leaves, h, leaf, hleaf => by
    rw [collectSimpleAbiFields] at h
    obtain ⟨hscalar, index, field, hfield, inner, offset, hpath, hinner⟩ :=
      mem_collectAbiLeaves fields h leaf hleaf
    rw [Nat.zero_add] at hpath
    obtain ⟨o, ho⟩ := exists_fieldAt hfield
    refine ⟨hscalar, index :: inner, o + offset, hpath, ?_⟩
    rw [pathTo, ho, Option.bind_some, hinner, Option.map_some]
  | .array _ _, _, _, h, _, _ => by rw [collectSimpleAbiFields] at h; cases h
  | .opaqueStruct, _, _, h, _, _ => by rw [collectSimpleAbiFields] at h; cases h
  | .void, _, _, h, _, _ => by rw [collectSimpleAbiFields] at h; cases h
  | .vector _ _, _, _, h, _, _ => by rw [collectSimpleAbiFields] at h; cases h

theorem mem_collectAbiLeaves : ∀ (fields : List Ty) {start : Nat} {path : List Nat}
    {leaves : List AbiLeaf}, collectAbiLeaves fields start path = some leaves →
      ∀ leaf ∈ leaves, isSimpleAbiScalarTy leaf.2 = true ∧
        ∃ index field, fields[index]? = some field ∧ ∃ inner offset,
          leaf.1 = path ++ (start + index) :: inner ∧ pathTo field inner = some (offset, leaf.2)
  | [], _, _, _, h, _, hleaf => by
    rw [collectAbiLeaves] at h
    cases h
    exact absurd hleaf List.not_mem_nil
  | field :: fields, start, path, leaves, h, leaf, hleaf => by
    rw [collectAbiLeaves] at h
    obtain ⟨first, hfirst, h⟩ := Option.bind_eq_some_iff.mp h
    obtain ⟨rest, hrest, rfl⟩ := Option.map_eq_some_iff.mp h
    rcases List.mem_append.mp hleaf with hleaf | hleaf
    · obtain ⟨hscalar, inner, offset, hpath, hinner⟩ :=
        mem_collectSimpleAbiFields field hfirst leaf hleaf
      refine ⟨hscalar, 0, field, rfl, inner, offset, ?_, hinner⟩
      rw [hpath, List.append_assoc, Nat.add_zero, List.singleton_append]
    · obtain ⟨hscalar, index, f, hf, inner, offset, hpath, hinner⟩ :=
        mem_collectAbiLeaves fields hrest leaf hleaf
      refine ⟨hscalar, index + 1, f, hf, inner, offset, ?_, hinner⟩
      rw [hpath, Nat.add_assoc, Nat.add_comm 1 index]

end

/-- A scalar is a number in as many bytes. -/
theorem passed_scalar {ty : Ty} (h : isSimpleAbiScalarTy ty = true) (mem : ByteMemory) (a : Int) :
    (AbiArg.scalar ty ((laidOut ty).codec.read mem a)).passed =
      .register (isFp ty) (mem.load a (laidOut ty).codec.size) := by
  have hscalar : ∃ n, (laidOut ty).codec = .scalar n := by
    cases ty <;> first | exact ⟨_, rfl⟩ | cases h
  obtain ⟨n, hn⟩ := hscalar
  have hbytes := Lib.toLE_ofLE (mem.load a n)
  rw [ByteMemory.length_load] at hbytes
  rw [hn]
  show Passed.register (isFp ty) (toLE (laidOut ty).codec.size (ofLE (mem.load a n))) = _
  rw [hn]
  exact congrArg _ hbytes

/-- The leaves of a type are the pieces of its values. -/
theorem leaf_passed {ty : Ty} {leaves : List AbiLeaf} (h : simpleAbiLeavesForTy ty = some leaves)
    (mem : ByteMemory) (slot : Int) : ∀ leaf ∈ leaves,
      (AbiArg.scalar leaf.2
        (leaf.1.foldl extractValue ((laidOut ty).codec.read mem slot))).passed =
      (scalarPiece (((pathTo ty leaf.1).map Prod.fst).getD 0) leaf.2).found ty mem slot := by
  intro leaf hleaf
  obtain ⟨hscalar, inner, offset, hpath, hinner⟩ := mem_collectSimpleAbiFields ty h leaf hleaf
  rw [List.nil_append] at hpath
  rw [hpath, hinner, extract_pathTo hinner, passed_scalar hscalar]
  rfl

/-- Leaves are those of the type, unless it has no size. -/
theorem argAbi_leaves {ty : Ty} {leaves : List AbiLeaf}
    (h : argAbiForTy ty = some (.leaves leaves)) :
    leaves = [] ∨ simpleAbiLeavesForTy ty = some leaves := by
  rw [argAbiForTy] at h
  split at h
  · cases h
    exact Or.inl rfl
  split at h
  · obtain ⟨size, -, h⟩ := Option.map_eq_some_iff.mp h
    rw [aggregateArgAbi] at h
    split at h
    · cases h
    split at h
    · cases h
      exact Or.inr ‹_›
    · cases h
  · obtain ⟨found, hfound, h⟩ := Option.map_eq_some_iff.mp h
    cases h
    exact Or.inr hfound

/-- crabbit's own way passes a value's pieces. -/
theorem lowerAbiCallArg_passed {ty : Ty} {pieces : List Piece} (h : crabbitPieces ty = some pieces)
    {arg : Argument} {mem : ByteMemory} (hvalue : (laidOut ty).codec.read mem arg.slot = arg.value) :
    ∃ lowered, lowerAbiCallArg ty arg = some lowered ∧
      lowered.map AbiArg.passed = pieces.map (Piece.found ty mem arg.slot) := by
  obtain ⟨abi, habi, rfl⟩ := Option.map_eq_some_iff.mp h
  refine ⟨_, by rw [lowerAbiCallArg, habi, Option.map_some], ?_⟩
  cases abi with
  | indirect =>
    show [Passed.memory arg.slot arg.value] = [.memory arg.slot _]
    rw [hvalue]
  | leaves leaves =>
    have hleaves : leaves = [] ∨ simpleAbiLeavesForTy ty = some leaves := argAbi_leaves habi
    show (leaves.map _).map _ = (leaves.map _).map _
    rw [List.map_map, List.map_map]
    rcases hleaves with rfl | hleaves
    · rfl
    · rw [← hvalue]
      exact List.map_congr_left (leaf_passed hleaves mem arg.slot)

/-! ## rustc's way passes its pieces -/

/-- What rustc's modes give: a cast is of at most a register's bytes, and the
    scalars are scalars. -/
def RustArg.Valid : RustArg → Prop
  | .cast size => size ≤ 8
  | .scalars parts => ∀ part ∈ parts, isSimpleAbiScalarTy part.2 = true
  | _ => True

theorem scalarAbiTy_simple {scalar : Primitive} {ty : Ty} (h : scalarAbiTy scalar = some ty) :
    isSimpleAbiScalarTy ty = true := by
  cases scalar <;> cases h <;> rfl

theorem rustArg_valid {mode : PassMode} {abi : RustArg} (h : rustArg mode = some abi) :
    abi.Valid := by
  cases mode with
  | ignore =>
    cases h
    trivial
  | direct repr =>
    obtain ⟨scalar, -, h⟩ := Option.bind_eq_some_iff.mp h
    obtain ⟨ty, hty, rfl⟩ := Option.map_eq_some_iff.mp h
    exact List.forall_mem_singleton.mpr (scalarAbiTy_simple hty)
  | pair repr =>
    obtain ⟨pair, -, h⟩ := Option.bind_eq_some_iff.mp h
    obtain ⟨a, ha, h⟩ := Option.bind_eq_some_iff.mp h
    obtain ⟨b, hb, rfl⟩ := Option.map_eq_some_iff.mp h
    exact List.forall_mem_cons.mpr
      ⟨scalarAbiTy_simple ha, List.forall_mem_singleton.mpr (scalarAbiTy_simple hb)⟩
  | cast size =>
    rw [rustArg] at h
    split at h
    case isTrue hsize =>
      cases h
      exact hsize
    case isFalse => cases h
  | indirect plain =>
    rw [rustArg] at h
    split at h <;> cases h
    trivial

theorem rustArgs_valid {modes : List PassMode} {args : List RustArg} (h : rustArgs modes = some args) :
    ∀ arg ∈ args, arg.Valid := by
  induction modes generalizing args with
  | nil =>
    cases h
    exact fun _ harg => absurd harg List.not_mem_nil
  | cons mode modes ih =>
    obtain ⟨arg, harg, h⟩ := Option.bind_eq_some_iff.mp h
    obtain ⟨rest, hrest, rfl⟩ := Option.map_eq_some_iff.mp h
    exact List.forall_mem_cons.mpr ⟨rustArg_valid harg, ih hrest⟩

/-- A value that is no aggregate is a scalar, or nothing. -/
theorem passed_itself {ty : Ty} (h : isAggregateTy ty = false) (mem : ByteMemory) (slot : Int) :
    (AbiArg.scalar ty ((laidOut ty).codec.read mem slot)).passed =
      (scalarPiece 0 ty).found ty mem slot := by
  by_cases hscalar : isSimpleAbiScalarTy ty = true
  · rw [passed_scalar hscalar, scalarPiece, Piece.found, Int.natCast_zero, Int.add_zero]
  · cases ty <;> first | exact absurd rfl hscalar | exact absurd h Bool.noConfusion | rfl

theorem exists_lowerRustAbiCallArg {ty : Ty} (arg : Argument) (abi : RustArg)
    (h : (crabbitTySize ty).isSome) :
    ∃ lowered, lowerRustAbiCallArg ty arg abi = some lowered := by
  obtain ⟨size, hsize⟩ := Option.isSome_iff_exists.mp h
  cases abi with
  | ignore => exact ⟨_, rfl⟩
  | indirect => exact ⟨_, rfl⟩
  | scalars parts =>
    simp only [lowerRustAbiCallArg, hsize, Option.map_some]
    split <;> exact ⟨_, rfl⟩
  | cast bytes =>
    simp only [lowerRustAbiCallArg, hsize, Option.map_some]
    split <;> exact ⟨_, rfl⟩

/-- rustc's way passes the pieces rustc passes, of the value as it lies in its
    slot. -/
theorem lowerRustAbiCallArg_received {ty : Ty} {abi : RustArg} (hvalid : abi.Valid)
    {arg : Argument} (hfits : Fits ty arg.value) {lowered : List AbiArg}
    (h : lowerRustAbiCallArg ty arg abi = some lowered) :
    lowered.map abi.received = (rustPieces ty abi).map
      (Piece.found ty ((laidOut ty).codec.write arg.value arg.mem arg.slot) arg.slot) := by
  have hread := (laidOut ty).codec.read_write hfits arg.mem arg.slot
  cases abi with
  | ignore =>
    cases h
    rfl
  | indirect =>
    cases h
    show [Passed.memory arg.slot arg.value] = [.memory arg.slot _]
    rw [hread]
  | cast size =>
    obtain ⟨_, -, rfl⟩ := Option.map_eq_some_iff.mp h
    have hscalar : isSimpleAbiScalarTy (.int 64 .signless) = true := rfl
    have hword := passed_scalar hscalar
      ((laidOut ty).codec.write arg.value arg.mem arg.slot) (arg.slot + (0 : Nat))
    have hlow := ByteMemory.take_drop_load ((laidOut ty).codec.write arg.value arg.mem arg.slot)
      (n := 8) (k := 0) (m := size) (a := arg.slot) (by rw [Nat.zero_add]; exact hvalid)
    simp only [lowerThroughMemory, RustArg.slotScalars, rustPieces, RustArg.received,
      List.map_cons, List.map_nil, Piece.found]
    rw [hword, Passed.low]
    rw [List.drop_zero] at hlow
    rw [← hlow, Int.natCast_zero, Int.add_zero]
    rfl
  | scalars parts =>
    simp only [lowerRustAbiCallArg] at h
    rw [rustPieces]
    by_cases hitself : isScalarItself ty (.scalars parts) = true
    · rw [if_pos hitself] at h ⊢
      cases h
      have hscalar : isAggregateTy ty = false := by
        match parts, hitself with
        | [_], hitself => simpa [isScalarItself] using hitself
      have hpassed := passed_itself hscalar
        ((laidOut ty).codec.write arg.value arg.mem arg.slot) arg.slot
      rw [hread] at hpassed
      exact congrArg (fun passed => [passed]) hpassed
    · rw [if_neg hitself] at h ⊢
      obtain ⟨_, -, rfl⟩ := Option.map_eq_some_iff.mp h
      rw [lowerThroughMemory, RustArg.slotScalars, List.map_map, List.map_map]
      exact List.map_congr_left fun part hpart => passed_scalar (hvalid part hpart) _ _

end Crabbit.Importer
