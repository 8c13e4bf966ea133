/-
  Crabbit.X86.Ops

  Machine instructions of the x86-64 dialect (`x86_64/ops.rs`): the opcodes,
  the register operands each opcode names, and instructions with their
  attributes.
-/

import Crabbit.X86.Registers

namespace Crabbit.X86

/-- One opcode per row of `define_x86_64_instructions!`. -/
inductive X86_64Opcode where
  | movImm | mov | add | sub | mul | umulh | sdiv | udiv | and | or | xor | shl | lsr | cmp
  | cset | push | pop | subSpImm | addSpImm | addSpOffset | strSpOffset | ldrSpOffset
  | strwSpOffset | ldrwSpOffset | strhSpOffset | ldrhSpOffset | strbSpOffset | ldrbSpOffset
  | ldrStackArg | strRegOffset | ldrRegOffset | strwRegOffset | ldrwRegOffset | strhRegOffset
  | ldrhRegOffset | strbRegOffset | ldrbRegOffset | adrLiteral | adrFunction | ret | ud2 | call
  | callReg | jmp | jcc | testJnz
  deriving DecidableEq

/-- The condition code of a `jcc` or `setcc`. -/
inductive ConditionCode where
  | o | no | b | ae | e | ne | be | a | s | ns | p | np | l | ge | le | g
  deriving DecidableEq

/-! ## Register operands -/

/-- The attribute a register operand is stored under. -/
inductive RegKey where
  | rd | rn | rm
  deriving DecidableEq

inductive RegisterOperandKind where
  | use | defn
  deriving DecidableEq

/-- The register operands of each opcode, in the order of its row. -/
def operandSpecs : X86_64Opcode → List (RegKey × RegisterOperandKind)
  | .movImm | .cset | .pop | .addSpOffset | .ldrSpOffset | .ldrwSpOffset | .ldrhSpOffset
  | .ldrbSpOffset | .ldrStackArg | .adrLiteral | .adrFunction =>
    [(.rd, .defn)]
  | .mov =>
    [(.rd, .defn), (.rm, .use)]
  | .add | .sub | .mul | .umulh | .sdiv | .udiv | .and | .or | .xor | .shl | .lsr =>
    [(.rd, .defn), (.rn, .use), (.rm, .use)]
  | .cmp =>
    [(.rn, .use), (.rm, .use)]
  | .push | .strSpOffset | .strwSpOffset | .strhSpOffset | .strbSpOffset =>
    [(.rd, .use)]
  | .strRegOffset | .strwRegOffset | .strhRegOffset | .strbRegOffset =>
    [(.rd, .use), (.rn, .use)]
  | .ldrRegOffset | .ldrwRegOffset | .ldrhRegOffset | .ldrbRegOffset =>
    [(.rd, .defn), (.rn, .use)]
  | .callReg | .testJnz =>
    [(.rn, .use)]
  | .subSpImm | .addSpImm | .ret | .ud2 | .call | .jmp | .jcc =>
    []

/-- The mnemonic of an opcode's row, as the encoder's errors name it. -/
def X86_64Opcode.mnemonic : X86_64Opcode → String
  | .movImm => "mov_imm" | .mov => "mov" | .add => "add" | .sub => "sub" | .mul => "mul"
  | .umulh => "umulh" | .sdiv => "sdiv" | .udiv => "udiv" | .and => "and" | .or => "or"
  | .xor => "xor" | .shl => "shl" | .lsr => "lsr" | .cmp => "cmp" | .cset => "cset"
  | .push => "push" | .pop => "pop" | .subSpImm => "sub_sp_imm" | .addSpImm => "add_sp_imm"
  | .addSpOffset => "add_sp_offset" | .strSpOffset => "str_sp_offset"
  | .ldrSpOffset => "ldr_sp_offset" | .strwSpOffset => "strw_sp_offset"
  | .ldrwSpOffset => "ldrw_sp_offset" | .strhSpOffset => "strh_sp_offset"
  | .ldrhSpOffset => "ldrh_sp_offset" | .strbSpOffset => "strb_sp_offset"
  | .ldrbSpOffset => "ldrb_sp_offset" | .ldrStackArg => "ldr_stack_arg"
  | .strRegOffset => "str_reg_offset" | .ldrRegOffset => "ldr_reg_offset"
  | .strwRegOffset => "strw_reg_offset" | .ldrwRegOffset => "ldrw_reg_offset"
  | .strhRegOffset => "strh_reg_offset" | .ldrhRegOffset => "ldrh_reg_offset"
  | .strbRegOffset => "strb_reg_offset" | .ldrbRegOffset => "ldrb_reg_offset"
  | .adrLiteral => "adr_literal" | .adrFunction => "adr_function" | .ret => "ret"
  | .ud2 => "ud2" | .call => "call" | .callReg => "call_reg" | .jmp => "jmp" | .jcc => "jcc"
  | .testJnz => "test_jnz"

/-- The `cc` nibble added to the `0f 8x` and `0f 9x` opcode bytes. -/
def ConditionCode.encoding : ConditionCode → Nat
  | .o => 0 | .no => 1 | .b => 2 | .ae => 3 | .e => 4 | .ne => 5 | .be => 6 | .a => 7
  | .s => 8 | .ns => 9 | .p => 10 | .np => 11 | .l => 12 | .ge => 13 | .le => 14 | .g => 15

/-- An instruction with its attributes.  `target` is the index of the
    successor block of a branch. -/
structure Inst where
  opcode : X86_64Opcode
  rd : Option Register := none
  rn : Option Register := none
  rm : Option Register := none
  imm : Option Nat := none
  cond : Option ConditionCode := none
  callee : Option String := none
  target : Option Nat := none
  literalLabel : Option String := none
  deriving DecidableEq

namespace Inst

def reg (inst : Inst) : RegKey → Option Register
  | .rd => inst.rd
  | .rn => inst.rn
  | .rm => inst.rm

/-! ## Constructors -/

def movImm (rd : Register) (imm : Nat) : Inst :=
  { opcode := .movImm, rd := some rd, imm := some imm }

def mov (rd rm : Register) : Inst :=
  { opcode := .mov, rd := some rd, rm := some rm }

def binary (opcode : X86_64Opcode) (rd rn rm : Register) : Inst :=
  { opcode, rd := some rd, rn := some rn, rm := some rm }

def push (rt : Register) : Inst :=
  { opcode := .push, rd := some rt }

def pop (rt : Register) : Inst :=
  { opcode := .pop, rd := some rt }

def subSpImm (bytes : Nat) : Inst :=
  { opcode := .subSpImm, imm := some bytes }

def addSpImm (bytes : Nat) : Inst :=
  { opcode := .addSpImm, imm := some bytes }

def addSpOffset (rd : Register) (offset : Nat) : Inst :=
  { opcode := .addSpOffset, rd := some rd, imm := some offset }

def strSpOffsetSized (opcode : X86_64Opcode) (rt : Register) (offset : Nat) : Inst :=
  { opcode, rd := some rt, imm := some offset }

def strSpOffset (rt : Register) (offset : Nat) : Inst :=
  strSpOffsetSized .strSpOffset rt offset

def ldrStackArg (rt : Register) (offset : Nat) : Inst :=
  { opcode := .ldrStackArg, rd := some rt, imm := some offset }

def ret : Inst := { opcode := .ret }

def call (callee : String) : Inst :=
  { opcode := .call, callee := some callee }

def callReg (rn : Register) : Inst :=
  { opcode := .callReg, rn := some rn }

end Inst

/-! ## Steps that may fail -/

theorem ok_of_bind {ε α β : Type} {x : Except ε α} {f : α → Except ε β} {b : β}
    (h : (x >>= f) = .ok b) : ∃ a, x = .ok a ∧ f a = .ok b := by
  cases x with
  | error e => cases h
  | ok a => exact ⟨a, rfl, h⟩

end Crabbit.X86
