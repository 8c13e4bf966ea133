/-
  Crabbit.X86.Encode

  The encode pass (`x86_64_encode.rs`): function, block and literal offsets are
  laid out from predicted byte lengths first, and then every function is encoded
  at the offset it was given.

  The length of an instruction is predicted by encoding it at offset 0 with
  every target at offset 0; where that fails the pass panics.
-/

import Crabbit.Aarch64.Encode
import Crabbit.Lib.Emission
import Crabbit.X86.Encoding

namespace Crabbit.X86

open Crabbit.Lib

/-! ## Machine functions in layout order -/

/-- An instruction with the bytes of the literal it refers to. -/
structure MachineInst extends Inst where
  literalBytes : Option (List UInt8) := none

structure PlacedBlock where
  id : Nat
  insts : List MachineInst

/-- A function after block placement, each of its blocks a block of its own;
    `blockName` spells a block in an error. -/
structure PlacedFunc where
  name : String
  blocks : List PlacedBlock
  blockName : Nat → String
  nodup : (blocks.map PlacedBlock.id).Nodup

def PlacedFunc.insts (func : PlacedFunc) : List MachineInst :=
  func.blocks.flatMap PlacedBlock.insts

/-! ## Sizes -/

/-- `inst_len`. -/
def instLen (inst : Inst) : Except String Nat :=
  (encodeInst inst 0 none).map fun e => e.bytes.length

def instsSize (insts : List MachineInst) : Except String Nat :=
  (insts.mapM fun inst => instLen inst.toInst).map List.sum

/-- `code_size`. -/
def PlacedFunc.codeSize (func : PlacedFunc) : Except String Nat :=
  (func.blocks.mapM fun block => instsSize block.insts).map List.sum

/-- `block_offsets`: where the blocks from `offset` on are expected. -/
def blockOffsets : Nat → List PlacedBlock → Except String (List (Nat × Nat))
  | _, [] => .ok []
  | offset, block :: rest => do
    let size ← instsSize block.insts
    let others ← blockOffsets (offset + size) rest
    return (block.id, offset) :: others

/-! ## Literals -/

/-- `literal_for_inst`. -/
def literalForInst (inst : MachineInst) : Option (String × List UInt8) :=
  if inst.opcode = .adrLiteral then do
    let label ← inst.literalLabel
    let bytes ← inst.literalBytes
    return (label, bytes)
  else none

/-- The literals of a function added to the map, which is sorted by label and
    keeps the first bytes of each. -/
def collectLiterals (literals : List (String × List UInt8)) (func : PlacedFunc) :
    List (String × List UInt8) :=
  func.insts.foldl (fun literals inst =>
    match literalForInst inst with
    | some (label, bytes) => Aarch64.orInsert label bytes literals
    | none => literals) literals

/-! ## The pass -/

/-- What the first walk over the functions has recorded. -/
structure Layout where
  offsets : List (String × Nat) := []
  literals : List (String × List UInt8) := []
  nextOffset : Nat := 0

def Layout.push (layout : Layout) (func : PlacedFunc) : Except String Layout := do
  let size ← func.codeSize
  return {
    offsets := (func.name, layout.nextOffset) :: layout.offsets
    literals := collectLiterals layout.literals func
    nextOffset := layout.nextOffset + size }

def layoutFuncs (funcs : List PlacedFunc) : Except String Layout := funcs.foldlM Layout.push {}

/-- The references of a function whose blocks are expected at the offsets. -/
def Layout.refs (layout : Layout) (func : PlacedFunc) (offsets : List (Nat × Nat)) :
    BinarySerializationContext where
  functionOffsets name := layout.offsets.lookup name
  blockOffsets block := offsets.lookup block
  literalOffsets label :=
    (Aarch64.literalOffsets layout.nextOffset layout.literals).lookup label
  blockName := func.blockName

/-- `encode_binary` at `pc`. -/
def encodeAt (refs : BinarySerializationContext) (pc : Nat) (inst : MachineInst) :
    Except String (List UInt8 × List BinaryFixup) :=
  (encodeInst inst.toInst pc (some refs)).map fun e => (e.bytes, e.fixups)

/-- A function from its offset on. -/
def encodeFunc (layout : Layout) (functionOffset : Nat) (func : PlacedFunc) :
    Except String (List UInt8 × List BinaryFixup) := do
  let offsets ← blockOffsets functionOffset func.blocks
  emitSeq (encodeAt (layout.refs func offsets)) functionOffset func.insts

/-- What the pass leaves on the module: the bytes of the functions one after
    another, the literals and the fixups. -/
structure EncodedModule where
  code : List UInt8
  moduleLiterals : List UInt8
  fixups : List BinaryFixup

/-- `X86_64EncodePass::run`. -/
def encodeModule (funcs : List PlacedFunc) : Except String EncodedModule := do
  let layout ← layoutFuncs funcs
  let code ← emitSeq (encodeFunc layout) 0 funcs
  return {
    code := code.1
    moduleLiterals := layout.literals.flatMap Prod.snd
    fixups := code.2 }

/-- The text section. -/
def EncodedModule.text (encoded : EncodedModule) : List UInt8 :=
  encoded.code ++ encoded.moduleLiterals

end Crabbit.X86
