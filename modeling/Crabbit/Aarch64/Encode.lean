/-
  Crabbit.Aarch64.Encode

  The encode pass (`aarch64_encode.rs`): function and literal offsets are
  laid out from the predicted byte lengths first, and then every function is
  encoded at the offset it was given.
-/

import Crabbit.Aarch64.Encoding

namespace Crabbit.Aarch64

open Crabbit.Lib

/-! ## Machine functions in layout order -/

/-- A block of a placed function under the identity branches name it by.
    Only its last instruction may be a terminator. -/
structure PlacedBlock where
  id : Nat
  insts : List MachineInst
  terminator_last : ∀ inst ∈ insts.dropLast, inst.isTerminator = false

/-- A function after block placement: its blocks in layout order, each one a
    block of its own. -/
structure PlacedFunc where
  name : String
  blocks : List PlacedBlock
  nodup : (blocks.map PlacedBlock.id).Nodup

/-- The block that follows in the layout: the first of the blocks still to come. -/
def nextBlock (rest : List PlacedBlock) : Option Nat := rest.head?.map PlacedBlock.id

/-- The predicted size of the instructions of a block that `next` follows. -/
def instsSize (next : Option Nat) (insts : List MachineInst) : Nat :=
  (insts.map fun inst => byteLen next inst.toInst).sum

/-- `code_size` of the blocks still to come. -/
def blocksSize : List PlacedBlock → Nat
  | [] => 0
  | block :: rest => instsSize (nextBlock rest) block.insts + blocksSize rest

def PlacedFunc.codeSize (func : PlacedFunc) : Nat := blocksSize func.blocks

/-- `block_offsets`: where the blocks from `offset` on are expected. -/
def blockOffsets : Nat → List PlacedBlock → List (Nat × Nat)
  | _, [] => []
  | offset, block :: rest =>
    (block.id, offset) :: blockOffsets (offset + instsSize (nextBlock rest) block.insts) rest

/-! ## Literals -/

/-- `entry(label).or_insert(bytes)` of a map sorted by label. -/
def orInsert (label : String) (bytes : List UInt8) :
    List (String × List UInt8) → List (String × List UInt8)
  | [] => [(label, bytes)]
  | (label', bytes') :: rest =>
    if label < label' then (label, bytes) :: (label', bytes') :: rest
    else if label = label' then (label', bytes') :: rest
    else (label', bytes') :: orInsert label bytes rest

/-- The literals of an instruction list added to the map. -/
def collectInstLiterals (literals : List (String × List UInt8)) (insts : List MachineInst) :
    List (String × List UInt8) :=
  insts.foldl (fun literals inst =>
    match literalForInst inst with
    | some (label, bytes) => orInsert label bytes literals
    | none => literals) literals

def collectLiterals (literals : List (String × List UInt8)) (func : PlacedFunc) :
    List (String × List UInt8) :=
  collectInstLiterals literals (func.blocks.flatMap PlacedBlock.insts)

/-- The literals one after another from `offset` on. -/
def literalOffsets : Nat → List (String × List UInt8) → List (String × Nat)
  | _, [] => []
  | offset, (label, bytes) :: rest =>
    (label, offset) :: literalOffsets (offset + bytes.length) rest

/-! ## The pass -/

/-- What the first walk over the functions has recorded: the offsets, a later
    function replacing an earlier one of its name, the literals, and the
    offset that comes next. -/
structure Layout where
  offsets : List (String × Nat) := []
  literals : List (String × List UInt8) := []
  nextOffset : Nat := 0

def Layout.push (layout : Layout) (func : PlacedFunc) : Layout where
  offsets := (func.name, layout.nextOffset) :: layout.offsets
  literals := collectLiterals layout.literals func
  nextOffset := layout.nextOffset + func.codeSize

def layoutFuncs (funcs : List PlacedFunc) : Layout := funcs.foldl Layout.push {}

/-- Encodings one after another. -/
def BinaryEncoding.append (first second : BinaryEncoding) : BinaryEncoding :=
  ⟨first.bytes ++ second.bytes, first.fixups ++ second.fixups⟩

/-- The instructions of a block from `pc` on. -/
def encodeInsts (refs : BinarySerializationContext) (next : Option Nat) :
    Nat → List MachineInst → Except EncodeError BinaryEncoding
  | _, [] => .ok ⟨[], []⟩
  | pc, inst :: rest => do
    let encoded ← encodeInst refs next pc inst
    let others ← encodeInsts refs next (pc + encoded.bytes.length) rest
    return encoded.append others

/-- The blocks of a function from `pc` on. -/
def encodeBlocks (refs : BinarySerializationContext) :
    Nat → List PlacedBlock → Except EncodeError BinaryEncoding
  | _, [] => .ok ⟨[], []⟩
  | pc, block :: rest => do
    let encoded ← encodeInsts refs (nextBlock rest) pc block.insts
    let others ← encodeBlocks refs (pc + encoded.bytes.length) rest
    return encoded.append others

/-- The references of a function that starts at `functionOffset`. -/
def Layout.refs (layout : Layout) (functionOffset : Nat) (func : PlacedFunc) :
    BinarySerializationContext where
  functionOffsets := layout.offsets
  blockOffsets := blockOffsets functionOffset func.blocks
  literalOffsets := literalOffsets layout.nextOffset layout.literals

/-- The functions of the module, the next one at `functionOffset`. -/
def encodeFuncs (layout : Layout) :
    Nat → List PlacedFunc → Except EncodeError (List BinaryEncoding)
  | _, [] => .ok []
  | functionOffset, func :: rest => do
    let encoded ← encodeBlocks (layout.refs functionOffset func) functionOffset func.blocks
    let others ← encodeFuncs layout (functionOffset + encoded.bytes.length) rest
    return encoded :: others

/-- What the pass leaves on the module: the bytes of each function, the
    literals and the fixups. -/
structure EncodedModule where
  functions : List (List UInt8)
  moduleLiterals : List UInt8
  fixups : List BinaryFixup
  deriving DecidableEq

/-- `Aarch64EncodePass::run`. -/
def encodeModule (funcs : List PlacedFunc) : Except EncodeError EncodedModule := do
  let layout := layoutFuncs funcs
  let encoded ← encodeFuncs layout 0 funcs
  return {
    functions := encoded.map BinaryEncoding.bytes
    moduleLiterals := layout.literals.flatMap Prod.snd
    fixups := encoded.flatMap BinaryEncoding.fixups }

/-- The text section: the functions one after another, then the literals. -/
def EncodedModule.text (encoded : EncodedModule) : List UInt8 :=
  encoded.functions.flatten ++ encoded.moduleLiterals

end Crabbit.Aarch64
