/-
  Crabbit.Aarch64.Ops

  Machine instructions of the AArch64 dialect (`aarch64/ops.rs`): the
  opcodes, the register operands each opcode names, and instructions with
  their attributes.
-/

import Crabbit.Aarch64.Registers

namespace Crabbit.Aarch64

/-- One opcode per row of `define_aarch64_instructions!`. -/
inductive Aarch64Opcode where
  | movImm | movz | movk | mov | add | sub | mul | umulh | sdiv | udiv | and | or | xor | shl
  | lsr | asr | faddD | faddS | fsubD | fsubS | fmulD | fmulS | fdivD | fdivS | fnegD | fnegS
  | fabsD | fabsS | fsqrtD | fsqrtS | frintmD | frintmS | frintpD | frintpS | frintzD | frintzS
  | frintaD | frintaS | frintnD | frintnS | fminnmD | fminnmS | fmaxnmD | fmaxnmS | fminD
  | fminS | fmaxD | fmaxS | fcmpD | fcmpS | fcvtDS | fcvtSD | scvtfDX | scvtfSX | ucvtfDX
  | ucvtfSX | fcvtzsXD | fcvtzsWD | fcvtzsXS | fcvtzsWS | fcvtzuXD | fcvtzuWD | fcvtzuXS
  | fcvtzuWS | fmovXD | fmovDX | fmovWS | fmovSW | fmovD | fmovS | fmovImmD | fmovImmS | addV4s
  | subV4s | mulV4s | addV2d | subV2d | faddV4s | fsubV4s | fmulV4s | fdivV4s | faddV2d
  | fsubV2d | fmulV2d | fdivV2d | andV16b | orrV16b | eorV16b | shlV4sImm | ushrV4sImm
  | sshrV4sImm | shlV2dImm | ushrV2dImm | sshrV2dImm | movV16b | dupV4sGpr | dupV2dGpr
  | dupV4sFpr | dupV2dFpr | addvS4s | addpD2d | faddpV4s | faddpS2s | faddpD2d | strqSpOffset
  | ldrqSpOffset | strqRegOffset | ldrqRegOffset | strdSpOffset | ldrdSpOffset | strsSpOffset
  | ldrsSpOffset | strdRegOffset | ldrdRegOffset | strsRegOffset | ldrsRegOffset | cmp
  | strPreSp | ldrPostSp | subSpImm | addSpImm | addSpOffset | strSpOffset | ldrSpOffset
  | strwSpOffset | ldrwSpOffset | strhSpOffset | ldrhSpOffset | strbSpOffset | ldrbSpOffset
  | ldrStackArg | strRegOffset | ldrRegOffset | strwRegOffset | ldrwRegOffset | strhRegOffset
  | ldrhRegOffset | strbRegOffset | ldrbRegOffset | adrLiteral | svc | cset | ret | brk | call
  | b | bCond | cbnz | adrFunction | blr | adrp | addLo12 | mrsTpidr | addTprelHi12
  | addTprelLo12Nc
  deriving DecidableEq

/-- A condition code; `al` and `nv` are not representable. -/
inductive ConditionCode where
  | eq | ne | hs | lo | mi | pl | vs | vc | hi | ls | ge | lt | gt | le
  deriving DecidableEq

/-! ## Register operands -/

/-- The attribute a register operand is stored under. -/
inductive RegKey where
  | rd | rn | rm
  deriving DecidableEq

inductive RegisterOperandKind where
  | use | defn
  deriving DecidableEq

/-- The register operands of each opcode, in the order of its row. -/
def operandSpecs : Aarch64Opcode → List (RegKey × RegisterOperandKind)
  | .movImm | .movz | .fmovImmD | .fmovImmS | .ldrqSpOffset | .ldrdSpOffset | .ldrsSpOffset
  | .ldrPostSp | .addSpOffset | .ldrSpOffset | .ldrwSpOffset | .ldrhSpOffset | .ldrbSpOffset
  | .ldrStackArg | .adrLiteral | .cset | .adrFunction | .adrp | .mrsTpidr =>
    [(.rd, .defn)]
  | .movk =>
    [(.rd, .use), (.rd, .defn)]
  | .mov | .fmovD | .fmovS | .movV16b =>
    [(.rd, .defn), (.rm, .use)]
  | .add | .sub | .mul | .umulh | .sdiv | .udiv | .and | .or | .xor | .shl | .lsr | .asr
  | .faddD | .faddS | .fsubD | .fsubS | .fmulD | .fmulS | .fdivD | .fdivS | .fminnmD | .fminnmS
  | .fmaxnmD | .fmaxnmS | .fminD | .fminS | .fmaxD | .fmaxS | .addV4s | .subV4s | .mulV4s
  | .addV2d | .subV2d | .faddV4s | .fsubV4s | .fmulV4s | .fdivV4s | .faddV2d | .fsubV2d
  | .fmulV2d | .fdivV2d | .andV16b | .orrV16b | .eorV16b | .faddpV4s =>
    [(.rd, .defn), (.rn, .use), (.rm, .use)]
  | .fnegD | .fnegS | .fabsD | .fabsS | .fsqrtD | .fsqrtS | .frintmD | .frintmS | .frintpD
  | .frintpS | .frintzD | .frintzS | .frintaD | .frintaS | .frintnD | .frintnS | .fcvtDS
  | .fcvtSD | .scvtfDX | .scvtfSX | .ucvtfDX | .ucvtfSX | .fcvtzsXD | .fcvtzsWD | .fcvtzsXS
  | .fcvtzsWS | .fcvtzuXD | .fcvtzuWD | .fcvtzuXS | .fcvtzuWS | .fmovXD | .fmovDX | .fmovWS
  | .fmovSW | .shlV4sImm | .ushrV4sImm | .sshrV4sImm | .shlV2dImm | .ushrV2dImm | .sshrV2dImm
  | .dupV4sGpr | .dupV2dGpr | .dupV4sFpr | .dupV2dFpr | .addvS4s | .addpD2d | .faddpS2s
  | .faddpD2d | .ldrqRegOffset | .ldrdRegOffset | .ldrsRegOffset | .ldrRegOffset
  | .ldrwRegOffset | .ldrhRegOffset | .ldrbRegOffset | .addLo12 | .addTprelHi12
  | .addTprelLo12Nc =>
    [(.rd, .defn), (.rn, .use)]
  | .fcmpD | .fcmpS | .cmp =>
    [(.rn, .use), (.rm, .use)]
  | .strqSpOffset | .strdSpOffset | .strsSpOffset | .strPreSp | .strSpOffset | .strwSpOffset
  | .strhSpOffset | .strbSpOffset =>
    [(.rd, .use)]
  | .strqRegOffset | .strdRegOffset | .strsRegOffset | .strRegOffset | .strwRegOffset
  | .strhRegOffset | .strbRegOffset =>
    [(.rd, .use), (.rn, .use)]
  | .subSpImm | .addSpImm | .svc | .ret | .brk | .call | .b | .bCond =>
    []
  | .cbnz | .blr =>
    [(.rn, .use)]

/-- An instruction with its attributes.  `succs` are the indices of the
    successor blocks, taken edge first. -/
structure Inst where
  opcode : Aarch64Opcode
  rd : Option Register := none
  rn : Option Register := none
  rm : Option Register := none
  imm : Option Nat := none
  shift : Option Nat := none
  cond : Option ConditionCode := none
  callee : Option String := none
  succs : List Nat := []
  deriving DecidableEq

structure RegisterOperand where
  key : RegKey
  reg : Register
  kind : RegisterOperandKind
  deriving DecidableEq

namespace Inst

def reg (inst : Inst) : RegKey → Option Register
  | .rd => inst.rd
  | .rn => inst.rn
  | .rm => inst.rm

/-- `collect_register_operands`: the operands the opcode names that are present. -/
def registerOperands (inst : Inst) : List RegisterOperand :=
  (operandSpecs inst.opcode).filterMap fun (key, kind) =>
    (inst.reg key).map fun reg => ⟨key, reg, kind⟩

/-- Whether the instruction ends its block. -/
def isTerminator (inst : Inst) : Bool :=
  match inst.opcode with
  | .b | .bCond | .cbnz | .ret | .brk => true
  | _ => false

/-- Whether the instruction is a `call` or a `blr`. -/
def isCall (inst : Inst) : Bool :=
  match inst.opcode with
  | .call | .blr => true
  | _ => false

end Inst

/-! ## Constructors -/

namespace Inst

def movImm (rd : Register) (imm : Nat) : Inst :=
  { opcode := .movImm, rd := some rd, imm := some imm }

def movz (rd : Register) (imm shift : Nat) : Inst :=
  { opcode := .movz, rd := some rd, imm := some imm, shift := some shift }

def movk (rd : Register) (imm shift : Nat) : Inst :=
  { opcode := .movk, rd := some rd, imm := some imm, shift := some shift }

def mov (rd rm : Register) : Inst :=
  { opcode := .mov, rd := some rd, rm := some rm }

def binary (opcode : Aarch64Opcode) (rd rn rm : Register) : Inst :=
  { opcode, rd := some rd, rn := some rn, rm := some rm }

def addSpOffset (rd : Register) (offset : Nat) : Inst :=
  { opcode := .addSpOffset, rd := some rd, imm := some offset }

def ldrRegOffsetSized (opcode : Aarch64Opcode) (rt rn : Register) (offset : Nat) : Inst :=
  { opcode, rd := some rt, rn := some rn, imm := some offset }

def ret : Inst := { opcode := .ret }

def call (callee : String) : Inst := { opcode := .call, callee := some callee }

def b (target : Nat) : Inst := { opcode := .b, succs := [target] }

def cmp (rn rm : Register) : Inst := { opcode := .cmp, rn := some rn, rm := some rm }

def cset (rd : Register) (cond : ConditionCode) : Inst :=
  { opcode := .cset, rd := some rd, cond := some cond }

end Inst

/-! ## Machine functions -/

/-- A machine block: its instructions in order.  Every block ends in its
    terminator, which names all successors; a block without one falls
    through to the next block of the layout. -/
structure MachineBlock where
  insts : List Inst
  terminator_last : ∀ inst ∈ insts.dropLast, inst.isTerminator = false
  succs_terminator : ∀ inst ∈ insts, inst.isTerminator = false → inst.succs = []

/-- The body of a machine function: its blocks in layout order, entry first. -/
abbrev MachineBody := List MachineBlock

end Crabbit.Aarch64
