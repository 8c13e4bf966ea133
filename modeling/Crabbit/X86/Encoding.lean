/-
  Crabbit.X86.Encoding

  Machine-code emission for the x86-64 dialect (`x86_64/encoding.rs`).

  The dialect's arithmetic ops are three-address (`rd = rn op rm`); the
  encoder expands them into two-address sequences and keeps `rax`/`rdx`/`rcx`
  free for the division, widening-multiply and shift-count expansions. With
  no `refs` it runs in sizing mode, where unresolved targets read as offset 0.
-/

import Crabbit.X86.Ops
import Crabbit.Lib.Bytes

namespace Crabbit.X86

open Crabbit.Lib (toLE)

/-! ## Encodings and the context they are made in -/

inductive FixupKind where
  | branch32
  deriving DecidableEq

structure BinaryFixup where
  offset : Nat
  symbol : String
  kind : FixupKind
  deriving DecidableEq

structure BinaryEncoding where
  bytes : List UInt8
  fixups : List BinaryFixup := []
  deriving DecidableEq

/-- Resolved offsets; `blockName` spells a block in an error. -/
structure BinarySerializationContext where
  functionOffsets : String → Option Nat
  blockOffsets : Nat → Option Nat
  literalOffsets : String → Option Nat
  blockName : Nat → String

/-! ## Operands -/

/-- The attribute's key, as errors name it. -/
def RegKey.name : RegKey → String
  | .rd => "x86_64_rd"
  | .rn => "x86_64_rn"
  | .rm => "x86_64_rm"

/-- The hardware number of a register operand. -/
def parseGpr (inst : Inst) (key : RegKey) : Except String UInt8 :=
  match inst.reg key with
  | none => .error ("x86-64 `" ++ inst.opcode.mnemonic ++ "` is missing register operand `" ++
      key.name ++ "`")
  | some (.gpr number) => .ok (UInt8.ofNat number)
  | some other => .error ("x86-64 `" ++ inst.opcode.mnemonic ++ "` operand `" ++ key.name ++
      "` is not a physical 64-bit GPR: `" ++ other.display ++ "`")

def immOf (inst : Inst) : Except String Nat :=
  match inst.imm with
  | some imm => .ok imm
  | none => .error ("x86-64 `" ++ inst.opcode.mnemonic ++ "` is missing its immediate")

def condOf (inst : Inst) : Except String ConditionCode :=
  match inst.cond with
  | some cond => .ok cond
  | none => .error ("x86-64 `" ++ inst.opcode.mnemonic ++ "` is missing its condition code")

/-- The base register of an access: `rsp`, or the operand `rn`. -/
def baseOf (inst : Inst) (onSp : Bool) : Except String UInt8 :=
  if onSp then .ok 4 else parseGpr inst .rn

def disp32 (value : Nat) (mnemonic : String) : Except String Nat :=
  if value < 2 ^ 31 then .ok value
  else .error ("x86-64 `" ++ mnemonic ++ "` displacement out of range")

/-- The low 64 bits, read as a signed number. -/
def asI64 (x : Int) : Int := x.bmod (2 ^ 64)

def rel32 (target pc instLen : Nat) (mnemonic : String) : Except String Int :=
  let delta := asI64 (asI64 (asI64 target - asI64 pc) - instLen)
  if -2 ^ 31 ≤ delta ∧ delta < 2 ^ 31 then .ok delta
  else .error ("x86-64 `" ++ mnemonic ++ "` branch target out of range")

def resolve (offsets : Option (String → Option Nat)) (key what : String) :
    Except String Nat :=
  match offsets with
  | none => .ok 0
  | some offsets =>
      match offsets key with
      | some offset => .ok offset
      | none => .error ("unknown " ++ what ++ " `" ++ key ++ "`")

/-- `unwrap` of an attribute. -/
def unwrap (attr : Option String) : Except String String :=
  match attr with
  | some value => .ok value
  | none => .error "called `Option::unwrap()` on a `None` value"

def branchTarget (inst : Inst) (refs : Option BinarySerializationContext) :
    Except String Nat :=
  match refs with
  | none => .ok 0
  | some refs =>
      match inst.target with
      | none => .error "branch has no target block"
      | some target =>
          match refs.blockOffsets target with
          | some offset => .ok offset
          | none => .error ("branch target `" ++ refs.blockName target ++
              "` is outside the enclosing function")

/-! ## Bytes -/

def rex (w r x b : Bool) : UInt8 :=
  (0x40 : UInt8) ||| (w.toUInt8 <<< 3) ||| (r.toUInt8 <<< 2) ||| (x.toUInt8 <<< 1) ||| b.toUInt8

def modrm (mode reg rm : UInt8) : UInt8 := (mode <<< 6) ||| (reg <<< 3) ||| rm

/-- `mov rd, rm` (register to register, 64-bit). -/
def emitMovRr (rd rm : UInt8) : List UInt8 :=
  [rex true (rm ≥ 8) false (rd ≥ 8), 0x89, modrm 0b11 (rm &&& 7) (rd &&& 7)]

/-- `op dst, src` for a two-address ALU opcode. -/
def emitAlu (aluOpcode dst src : UInt8) : List UInt8 :=
  [rex true (src ≥ 8) false (dst ≥ 8), aluOpcode, modrm 0b11 (src &&& 7) (dst &&& 7)]

/-- One instruction of a group: the opcode's register field is `ext`. -/
def emitGroup (opcode ext rm : UInt8) : List UInt8 :=
  [rex true false false (rm ≥ 8), opcode, modrm 0b11 ext (rm &&& 7)]

/-- `rd = rn op rm` for a two-address ALU opcode. Non-commutative subtraction
    with `rd == rm` computes `rm - rn` and negates. -/
def emitAluThree (aluOpcode rd rn rm : UInt8) (commutative : Bool) : List UInt8 :=
  if rd = rn then emitAlu aluOpcode rd rm
  else if rd = rm then
    emitAlu aluOpcode rd rn ++ if commutative then [] else emitGroup 0xf7 3 rd
  else emitMovRr rd rn ++ emitAlu aluOpcode rd rm

/-- Non-widening low multiply via two-operand imul (0f af /r). -/
def emitMul (rd rn rm : UInt8) : List UInt8 :=
  (if rd = rn ∨ rd = rm then [] else emitMovRr rd rn) ++
    [rex true (rd ≥ 8) false ((if rd = rn then rm else if rd = rm then rn else rm) ≥ 8),
      0x0f, 0xaf,
      modrm 0b11 (rd &&& 7) ((if rd = rn then rm else if rd = rm then rn else rm) &&& 7)]

def checkExpansionOperands (mnemonic : String) (operands reserved : List UInt8) :
    Except String Unit :=
  if operands.any reserved.contains then
    .error ("x86-64 `" ++ mnemonic ++ "` expansion clobbers a register its operands live in")
  else .ok ()

/-- ModRM+SIB+disp32 memory operand `[base + disp]` for register field `reg`. -/
def emitMemOperand (reg base : UInt8) (disp : Nat) : List UInt8 :=
  (if base &&& 7 = 4 then [modrm 0b10 (reg &&& 7) 0b100, 0x24]
    else [modrm 0b10 (reg &&& 7) (base &&& 7)]) ++ toLE 4 disp

/-- Store the low `size` bytes of `rt` to `[base + disp]`. -/
def emitStore (size : Nat) (rt base : UInt8) (disp : Nat) : List UInt8 :=
  (if size = 8 then [rex true (rt ≥ 8) false (base ≥ 8), 0x89]
    else if size = 4 then [rex false (rt ≥ 8) false (base ≥ 8), 0x89]
    else if size = 2 then [0x66, rex false (rt ≥ 8) false (base ≥ 8), 0x89]
    else [rex false (rt ≥ 8) false (base ≥ 8), 0x88]) ++ emitMemOperand rt base disp

/-- Load `size` bytes at `[base + disp]` into `rt`, zero-extending to 64 bits. -/
def emitLoad (size : Nat) (rt base : UInt8) (disp : Nat) : List UInt8 :=
  (if size = 8 then [rex true (rt ≥ 8) false (base ≥ 8), 0x8b]
    else if size = 4 then [rex false (rt ≥ 8) false (base ≥ 8), 0x8b]
    else if size = 2 then [rex true (rt ≥ 8) false (base ≥ 8), 0x0f, 0xb7]
    else [rex true (rt ≥ 8) false (base ≥ 8), 0x0f, 0xb6]) ++ emitMemOperand rt base disp

/-- The bytes of an `i32`. -/
def i32Bytes (x : Int) : List UInt8 := toLE 4 (x % 2 ^ 32).toNat

def emitLeaRip (rd : UInt8) (target pc : Nat) (mnemonic : String) :
    Except String (List UInt8) := do
  let rel ← rel32 target pc 7 mnemonic
  return [rex true (rd ≥ 8) false false, 0x8d, modrm 0b00 (rd &&& 7) 0b101] ++ i32Bytes rel

/-! ## One instruction -/

/-- The ALU opcode byte of a three-address op, and whether it commutes. -/
def aluRow : X86_64Opcode → Option (UInt8 × Bool)
  | .add => some (0x01, true)
  | .sub => some (0x29, false)
  | .and => some (0x21, true)
  | .or => some (0x09, true)
  | .xor => some (0x31, true)
  | _ => none

/-- A load or store: the access size, and whether it is a store, whether its
    base is `rsp`. -/
def memRow : X86_64Opcode → Option (Nat × Bool × Bool)
  | .strSpOffset => some (8, true, true)
  | .ldrSpOffset => some (8, false, true)
  | .strwSpOffset => some (4, true, true)
  | .ldrwSpOffset => some (4, false, true)
  | .strhSpOffset => some (2, true, true)
  | .ldrhSpOffset => some (2, false, true)
  | .strbSpOffset => some (1, true, true)
  | .ldrbSpOffset => some (1, false, true)
  | .strRegOffset => some (8, true, false)
  | .ldrRegOffset => some (8, false, false)
  | .strwRegOffset => some (4, true, false)
  | .ldrwRegOffset => some (4, false, false)
  | .strhRegOffset => some (2, true, false)
  | .ldrhRegOffset => some (2, false, false)
  | .strbRegOffset => some (1, true, false)
  | .ldrbRegOffset => some (1, false, false)
  | _ => none

/-- The ops that refer to nothing outside themselves. -/
def encodeStraight (inst : Inst) : Except String (List UInt8) :=
  let mnemonic := inst.opcode.mnemonic
  match aluRow inst.opcode, memRow inst.opcode, inst.opcode with
  | some (aluOpcode, commutative), _, _ => do
      let rd ← parseGpr inst .rd
      let rn ← parseGpr inst .rn
      let rm ← parseGpr inst .rm
      return emitAluThree aluOpcode rd rn rm commutative
  | none, some (size, isStore, onSp), _ => do
      let rd ← parseGpr inst .rd
      let base ← baseOf inst onSp
      let imm ← immOf inst
      let disp ← disp32 imm mnemonic
      return if isStore then emitStore size rd base disp else emitLoad size rd base disp
  | none, none, .movImm => do
      let rd ← parseGpr inst .rd
      let imm ← immOf inst
      return [rex true false false (rd ≥ 8), 0xb8 + (rd &&& 7)] ++ toLE 8 imm
  | none, none, .mov => do
      let rd ← parseGpr inst .rd
      let rm ← parseGpr inst .rm
      return emitMovRr rd rm
  | none, none, .mul => do
      let rd ← parseGpr inst .rd
      let rn ← parseGpr inst .rn
      let rm ← parseGpr inst .rm
      return emitMul rd rn rm
  | none, none, .umulh => do
      -- mov rax, rn; mul rm; mov rd, rdx.
      let rd ← parseGpr inst .rd
      let rn ← parseGpr inst .rn
      let rm ← parseGpr inst .rm
      checkExpansionOperands mnemonic [rd, rn, rm] [0, 2]
      return emitMovRr 0 rn ++ emitGroup 0xf7 4 rm ++ emitMovRr rd 2
  | none, none, .sdiv => do
      -- mov rax, rn; cqo; idiv rm; mov rd, rax.
      let rd ← parseGpr inst .rd
      let rn ← parseGpr inst .rn
      let rm ← parseGpr inst .rm
      checkExpansionOperands mnemonic [rd, rn, rm] [0, 2]
      return emitMovRr 0 rn ++ [0x48, 0x99] ++ emitGroup 0xf7 7 rm ++ emitMovRr rd 0
  | none, none, .udiv => do
      -- mov rax, rn; xor edx, edx; div rm; mov rd, rax.
      let rd ← parseGpr inst .rd
      let rn ← parseGpr inst .rn
      let rm ← parseGpr inst .rm
      checkExpansionOperands mnemonic [rd, rn, rm] [0, 2]
      return emitMovRr 0 rn ++ [0x31, 0xd2] ++ emitGroup 0xf7 6 rm ++ emitMovRr rd 0
  | none, none, .shl | none, none, .lsr => do
      -- rm is saved into rcx before rd is written, so rd == rm stays correct.
      let rd ← parseGpr inst .rd
      let rn ← parseGpr inst .rn
      let rm ← parseGpr inst .rm
      checkExpansionOperands mnemonic [rd, rn, rm] [1]
      return emitMovRr 1 rm ++ (if rd = rn then [] else emitMovRr rd rn) ++
        emitGroup 0xd3 (if inst.opcode = .shl then 4 else 5) rd
  | none, none, .cmp => do
      let rn ← parseGpr inst .rn
      let rm ← parseGpr inst .rm
      return emitAlu 0x39 rn rm
  | none, none, .cset => do
      -- setcc rd8; movzx rd, rd8.
      let rd ← parseGpr inst .rd
      let cond ← condOf inst
      return [rex false false false (rd ≥ 8), 0x0f, 0x90 + UInt8.ofNat cond.encoding,
        modrm 0b11 0 (rd &&& 7), rex true (rd ≥ 8) false (rd ≥ 8), 0x0f, 0xb6,
        modrm 0b11 (rd &&& 7) (rd &&& 7)]
  | none, none, .push => do
      let rt ← parseGpr inst .rd
      return [rex false false false (rt ≥ 8), 0x50 + (rt &&& 7)]
  | none, none, .pop => do
      let rt ← parseGpr inst .rd
      return [rex false false false (rt ≥ 8), 0x58 + (rt &&& 7)]
  | none, none, .subSpImm => do
      let imm ← immOf inst
      let bytes ← disp32 imm mnemonic
      return [0x48, 0x81, 0xec] ++ toLE 4 bytes
  | none, none, .addSpImm => do
      let imm ← immOf inst
      let bytes ← disp32 imm mnemonic
      return [0x48, 0x81, 0xc4] ++ toLE 4 bytes
  | none, none, .addSpOffset => do
      let rd ← parseGpr inst .rd
      let imm ← immOf inst
      let disp ← disp32 imm mnemonic
      return [rex true (rd ≥ 8) false false, 0x8d] ++ emitMemOperand rd 4 disp
  | none, none, .ldrStackArg => do
      -- Incoming stack arguments sit above the return address.
      let rd ← parseGpr inst .rd
      let imm ← immOf inst
      let disp ← disp32 ((imm + 8) % 2 ^ 64) mnemonic
      return emitLoad 8 rd 4 disp
  | none, none, .ret => return [0xc3]
  | none, none, .ud2 => return [0x0f, 0x0b]
  | none, none, .callReg => do
      let rn ← parseGpr inst .rn
      return [rex false false false (rn ≥ 8), 0xff, modrm 0b11 2 (rn &&& 7)]
  | none, none, _ => .ok []

/-- The ops the encoding of which depends on resolved targets. -/
def X86_64Opcode.refers : X86_64Opcode → Bool
  | .adrLiteral | .adrFunction | .call | .jmp | .jcc | .testJnz => true
  | _ => false

/-- The ops that refer to literals, functions and blocks. -/
def encodeReferring (inst : Inst) (pc : Nat) (refs : Option BinarySerializationContext) :
    Except String BinaryEncoding :=
  let mnemonic := inst.opcode.mnemonic
  match inst.opcode with
  | .adrLiteral => do
      let rd ← parseGpr inst .rd
      let label ← unwrap inst.literalLabel
      let target ← resolve (refs.map (·.literalOffsets)) label "literal label"
      let bytes ← emitLeaRip rd target pc mnemonic
      return { bytes }
  | .adrFunction => do
      let rd ← parseGpr inst .rd
      let symbol ← unwrap inst.callee
      let target ← resolve (refs.map (·.functionOffsets)) symbol "adr_function target"
      let bytes ← emitLeaRip rd target pc mnemonic
      return { bytes }
  | .call => do
      let callee ← unwrap inst.callee
      match refs.elim (some 0) (·.functionOffsets callee) with
      | some target => do
          let rel ← rel32 target pc 5 mnemonic
          return { bytes := [0xe8] ++ i32Bytes rel }
      | none =>
          -- The offset of the fixup is a `u32`, and the sum panics.
          if pc % 2 ^ 32 + 1 = 2 ^ 32 then .error "attempt to add with overflow"
          else
            return {
              bytes := [0xe8] ++ i32Bytes 0
              fixups := [⟨pc % 2 ^ 32 + 1, callee, .branch32⟩] }
  | .jmp => do
      let target ← branchTarget inst refs
      let rel ← rel32 target pc 5 mnemonic
      return { bytes := [0xe9] ++ i32Bytes rel }
  | .jcc => do
      let target ← branchTarget inst refs
      let cond ← condOf inst
      let rel ← rel32 target pc 6 mnemonic
      return { bytes := [0x0f, 0x80 + UInt8.ofNat cond.encoding] ++ i32Bytes rel }
  | .testJnz => do
      -- test rn, rn; jnz target.
      let rn ← parseGpr inst .rn
      let target ← branchTarget inst refs
      let rel ← rel32 target pc 9 mnemonic
      return { bytes := emitAlu 0x85 rn rn ++ [0x0f, 0x85] ++ i32Bytes rel }
  | _ => .ok { bytes := [] }

def encodeInst (inst : Inst) (pc : Nat) (refs : Option BinarySerializationContext) :
    Except String BinaryEncoding :=
  if inst.opcode.refers then encodeReferring inst pc refs
  else (encodeStraight inst).map fun bytes => { bytes }

end Crabbit.X86
