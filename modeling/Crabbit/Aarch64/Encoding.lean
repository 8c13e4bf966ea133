/-
  Crabbit.Aarch64.Encoding

  The instruction encoder of the AArch64 dialect (`aarch64/encoding.rs`):
  the fixed one-word encodings, the words of branches and calls, the
  pc-relative address sequences, and the byte lengths the layout passes
  predict for them.
-/

import Crabbit.Aarch64.Ops
import Crabbit.Lib.Bytes
import Crabbit.Lib.TwosComplement

namespace Crabbit.Aarch64

open Crabbit.Lib

/-! ## Register numbers -/

/-- The hardware number of a physical 64-bit GPR.  The source panics on any
    other register, which is `none` here and in the two functions below. -/
def xreg : Register → Option Nat
  | .physical (.gpr64 number) => some number
  | _ => none

/-- The hardware number of a physical FP register. -/
def freg : Register → Option Nat
  | .physical (.fpr64 number) | .physical (.fpr32 number) => some number
  | _ => none

/-- The hardware number of a physical 128-bit SIMD register. -/
def qreg : Register → Option Nat
  | .physical (.simd128 number) => some number
  | _ => none

/-- The hardware number of the operand under `key`, read from one register file. -/
def Inst.number (inst : Inst) (file : Register → Option Nat) (key : RegKey) : Option Nat :=
  (inst.reg key).bind file

namespace ConditionCode

/-- The 4-bit `cond` field of `B.cond` and the condition-select instructions. -/
def encoding : ConditionCode → Nat
  | .eq => 0 | .ne => 1 | .hs => 2 | .lo => 3 | .mi => 4 | .pl => 5 | .vs => 6 | .vc => 7
  | .hi => 8 | .ls => 9 | .ge => 10 | .lt => 11 | .gt => 12 | .le => 13

/-- The condition that holds exactly when the given one does not. -/
def invert : ConditionCode → ConditionCode
  | .eq => .ne | .ne => .eq | .hs => .lo | .lo => .hs | .mi => .pl | .pl => .mi
  | .vs => .vc | .vc => .vs | .hi => .ls | .ls => .hi | .ge => .lt | .lt => .ge
  | .gt => .le | .le => .gt

end ConditionCode

/-! ## One-word instructions

The immediates are 64-bit attributes that the encoders truncate to `u32`
only after the range checks, or under a mask. -/

def encodeWideMove (inst : Inst) (base : Nat) : Option Nat := do
  let shift ← inst.shift
  if shift > 48 ∨ shift % 16 ≠ 0 then none
  else
    let imm ← inst.imm
    let rd ← inst.number xreg .rd
    return base ||| (shift / 16) <<< 21 ||| (imm &&& 0xffff) <<< 5 ||| rd

/-- Three register operands of one file. -/
def encodeThree (file : Register → Option Nat) (inst : Inst) (base : Nat) : Option Nat := do
  let rm ← inst.number file .rm
  let rn ← inst.number file .rn
  let rd ← inst.number file .rd
  return base ||| rm <<< 16 ||| rn <<< 5 ||| rd

def encodeThreeVreg (inst : Inst) (base : Nat) : Option Nat := encodeThree qreg inst base

def encodeThreeFreg (inst : Inst) (base : Nat) : Option Nat := encodeThree freg inst base

def encodeThreeReg (inst : Inst) (base : Nat) : Option Nat := encodeThree xreg inst base

/-- A per-lane shift by immediate: `immh:immb` is `lanebits + sh` for left
    shifts and `2 * lanebits - sh` for right shifts. -/
def encodeVshiftImm (inst : Inst) (base lanebits : Nat) (right : Bool) : Option Nat := do
  let sh ← inst.imm
  let field ← if right then
      if sh = 0 ∨ sh > lanebits then none else some (2 * lanebits - sh)
    else if sh ≥ lanebits then none else some (lanebits + sh)
  let rn ← inst.number qreg .rn
  let rd ← inst.number qreg .rd
  return base ||| field <<< 16 ||| rn <<< 5 ||| rd

/-- An `rd <- rn` instruction whose operands may live in different files. -/
def encodeTwoReg (inst : Inst) (base : Nat) (rdNumber rnNumber : Register → Option Nat) :
    Option Nat := do
  let rn ← inst.number rnNumber .rn
  let rd ← inst.number rdNumber .rd
  return base ||| rn <<< 5 ||| rd

def encodeFcmp (inst : Inst) (base : Nat) : Option Nat := do
  let rm ← inst.number freg .rm
  let rn ← inst.number freg .rn
  return base ||| rm <<< 16 ||| rn <<< 5

def encodeFmovRr (inst : Inst) (base : Nat) : Option Nat := do
  let rm ← inst.number freg .rm
  let rd ← inst.number freg .rd
  return base ||| rm <<< 5 ||| rd

def encodeFmovImm (inst : Inst) (base : Nat) : Option Nat := do
  let imm8 ← inst.imm
  if imm8 > 0xff then none
  else
    let rd ← inst.number freg .rd
    return base ||| imm8 <<< 13 ||| rd

/-- Loads and stores with a scaled immediate, or the unscaled `ldur`/`stur`
    form where the scaled one does not fit; `file` is the data register's. -/
def encodeMemOffsetWith (inst : Inst) (base scale : Nat) (fixedRn : Option Nat)
    (file : Register → Option Nat) : Option Nat := do
  let bytes ← inst.imm
  let rn ← fixedRn <|> inst.number xreg .rn
  if bytes ≤ 4095 * scale ∧ bytes % scale = 0 then
    let rd ← inst.number file .rd
    return base ||| (bytes / scale) <<< 10 ||| rn <<< 5 ||| rd
  else if bytes > 255 then none
  else if base < 0x01000000 then none
  else
    let rd ← inst.number file .rd
    return (base - 0x01000000) ||| bytes <<< 12 ||| rn <<< 5 ||| rd

def encodeMemOffset (inst : Inst) (base scale : Nat) (fixedRn : Option Nat) : Option Nat :=
  encodeMemOffsetWith inst base scale fixedRn xreg

def encodeFpMemOffset (inst : Inst) (base scale : Nat) (fixedRn : Option Nat) : Option Nat :=
  encodeMemOffsetWith inst base scale fixedRn freg

def encodeQMemOffset (inst : Inst) (base : Nat) (fixedRn : Option Nat) : Option Nat :=
  encodeMemOffsetWith inst base 16 fixedRn qreg

def encodeSvc (inst : Inst) : Option Nat := do
  let imm ← inst.imm
  if imm > 0xffff then none else return 0xd4000001 ||| imm <<< 5

def encodeStrPreSp (inst : Inst) : Option Nat := do
  let bytes ← inst.imm
  if bytes > 256 ∨ bytes % 8 ≠ 0 then none
  else
    let rd ← inst.number xreg .rd
    return 0xf8000c00 ||| ((512 - bytes) &&& 0x1ff) <<< 12 ||| 31 <<< 5 ||| rd

def encodeLdrPostSp (inst : Inst) : Option Nat := do
  let bytes ← inst.imm
  if bytes > 255 ∨ bytes % 8 ≠ 0 then none
  else
    let rd ← inst.number xreg .rd
    return 0xf8400400 ||| bytes <<< 12 ||| 31 <<< 5 ||| rd

def encodeSpImm (inst : Inst) (base : Nat) : Option Nat := do
  let bytes ← inst.imm
  if bytes > 4095 then none else return base ||| bytes <<< 10

def encodeAddSpOffset (inst : Inst) : Option Nat := do
  let bytes ← inst.imm
  if bytes > 4095 then none
  else
    let rd ← inst.number xreg .rd
    return 0x910003e0 ||| bytes <<< 10 ||| rd

def encodeSpOffset (inst : Inst) (base : Nat) : Option Nat := do
  let bytes ← inst.imm
  if bytes > 32760 ∨ bytes % 8 ≠ 0 then none
  else
    let rd ← inst.number xreg .rd
    return base ||| (bytes / 8) <<< 10 ||| rd

def encodeCmp (inst : Inst) : Option Nat := do
  let rm ← inst.number xreg .rm
  let rn ← inst.number xreg .rn
  return 0xeb00001f ||| rm <<< 16 ||| rn <<< 5

/-- `cset rd, cond` is `csinc rd, xzr, xzr, invert(cond)`. -/
def encodeCset (inst : Inst) : Option Nat := do
  let cond ← inst.cond
  let rd ← inst.number xreg .rd
  return 0x9a9f07e0 ||| cond.invert.encoding <<< 12 ||| rd

/-- The word of an instruction whose encoding depends on its own operands only. -/
def encodeFixedInst (inst : Inst) : Option Nat :=
  match inst.opcode with
  | .movImm => do
    let imm ← inst.imm
    let rd ← inst.number xreg .rd
    return 0xd2800000 ||| (imm &&& 0xffff) <<< 5 ||| rd
  | .movz => encodeWideMove inst 0xd2800000
  | .movk => encodeWideMove inst 0xf2800000
  | .mov => do
    let rm ← inst.number xreg .rm
    let rd ← inst.number xreg .rd
    return 0xaa0003e0 ||| rm <<< 16 ||| rd
  | .add => encodeThreeReg inst 0x8b000000
  | .sub => encodeThreeReg inst 0xcb000000
  | .mul => encodeThreeReg inst 0x9b007c00
  | .umulh => encodeThreeReg inst 0x9bc07c00
  | .sdiv => encodeThreeReg inst 0x9ac00c00
  | .udiv => encodeThreeReg inst 0x9ac00800
  | .and => encodeThreeReg inst 0x8a000000
  | .or => encodeThreeReg inst 0xaa000000
  | .xor => encodeThreeReg inst 0xca000000
  | .shl => encodeThreeReg inst 0x9ac02000
  | .lsr => encodeThreeReg inst 0x9ac02400
  | .asr => encodeThreeReg inst 0x9ac02800
  | .faddD => encodeThreeFreg inst 0x1e602800
  | .faddS => encodeThreeFreg inst 0x1e202800
  | .fsubD => encodeThreeFreg inst 0x1e603800
  | .fsubS => encodeThreeFreg inst 0x1e203800
  | .fmulD => encodeThreeFreg inst 0x1e600800
  | .fmulS => encodeThreeFreg inst 0x1e200800
  | .fdivD => encodeThreeFreg inst 0x1e601800
  | .fdivS => encodeThreeFreg inst 0x1e201800
  | .fnegD => encodeTwoReg inst 0x1e614000 freg freg
  | .fnegS => encodeTwoReg inst 0x1e214000 freg freg
  | .fabsD => encodeTwoReg inst 0x1e60c000 freg freg
  | .fabsS => encodeTwoReg inst 0x1e20c000 freg freg
  | .fsqrtD => encodeTwoReg inst 0x1e61c000 freg freg
  | .fsqrtS => encodeTwoReg inst 0x1e21c000 freg freg
  | .frintmD => encodeTwoReg inst 0x1e654000 freg freg
  | .frintmS => encodeTwoReg inst 0x1e254000 freg freg
  | .frintpD => encodeTwoReg inst 0x1e64c000 freg freg
  | .frintpS => encodeTwoReg inst 0x1e24c000 freg freg
  | .frintzD => encodeTwoReg inst 0x1e65c000 freg freg
  | .frintzS => encodeTwoReg inst 0x1e25c000 freg freg
  | .frintaD => encodeTwoReg inst 0x1e664000 freg freg
  | .frintaS => encodeTwoReg inst 0x1e264000 freg freg
  | .frintnD => encodeTwoReg inst 0x1e644000 freg freg
  | .frintnS => encodeTwoReg inst 0x1e244000 freg freg
  | .fminnmD => encodeThreeFreg inst 0x1e607800
  | .fminnmS => encodeThreeFreg inst 0x1e207800
  | .fmaxnmD => encodeThreeFreg inst 0x1e606800
  | .fmaxnmS => encodeThreeFreg inst 0x1e206800
  | .fminD => encodeThreeFreg inst 0x1e605800
  | .fminS => encodeThreeFreg inst 0x1e205800
  | .fmaxD => encodeThreeFreg inst 0x1e604800
  | .fmaxS => encodeThreeFreg inst 0x1e204800
  | .fcmpD => encodeFcmp inst 0x1e602000
  | .fcmpS => encodeFcmp inst 0x1e202000
  | .fcvtDS => encodeTwoReg inst 0x1e22c000 freg freg
  | .fcvtSD => encodeTwoReg inst 0x1e624000 freg freg
  | .scvtfDX => encodeTwoReg inst 0x9e620000 freg xreg
  | .scvtfSX => encodeTwoReg inst 0x9e220000 freg xreg
  | .ucvtfDX => encodeTwoReg inst 0x9e630000 freg xreg
  | .ucvtfSX => encodeTwoReg inst 0x9e230000 freg xreg
  | .fcvtzsXD => encodeTwoReg inst 0x9e780000 xreg freg
  | .fcvtzsWD => encodeTwoReg inst 0x1e780000 xreg freg
  | .fcvtzsXS => encodeTwoReg inst 0x9e380000 xreg freg
  | .fcvtzsWS => encodeTwoReg inst 0x1e380000 xreg freg
  | .fcvtzuXD => encodeTwoReg inst 0x9e790000 xreg freg
  | .fcvtzuWD => encodeTwoReg inst 0x1e790000 xreg freg
  | .fcvtzuXS => encodeTwoReg inst 0x9e390000 xreg freg
  | .fcvtzuWS => encodeTwoReg inst 0x1e390000 xreg freg
  | .fmovXD => encodeTwoReg inst 0x9e660000 xreg freg
  | .fmovDX => encodeTwoReg inst 0x9e670000 freg xreg
  | .fmovWS => encodeTwoReg inst 0x1e260000 xreg freg
  | .fmovSW => encodeTwoReg inst 0x1e270000 freg xreg
  | .fmovD => encodeFmovRr inst 0x1e604000
  | .fmovS => encodeFmovRr inst 0x1e204000
  | .fmovImmD => encodeFmovImm inst 0x1e601000
  | .fmovImmS => encodeFmovImm inst 0x1e201000
  | .addV4s => encodeThreeVreg inst 0x4ea08400
  | .subV4s => encodeThreeVreg inst 0x6ea08400
  | .mulV4s => encodeThreeVreg inst 0x4ea09c00
  | .addV2d => encodeThreeVreg inst 0x4ee08400
  | .subV2d => encodeThreeVreg inst 0x6ee08400
  | .faddV4s => encodeThreeVreg inst 0x4e20d400
  | .fsubV4s => encodeThreeVreg inst 0x4ea0d400
  | .fmulV4s => encodeThreeVreg inst 0x6e20dc00
  | .fdivV4s => encodeThreeVreg inst 0x6e20fc00
  | .faddV2d => encodeThreeVreg inst 0x4e60d400
  | .fsubV2d => encodeThreeVreg inst 0x4ee0d400
  | .fmulV2d => encodeThreeVreg inst 0x6e60dc00
  | .fdivV2d => encodeThreeVreg inst 0x6e60fc00
  | .andV16b => encodeThreeVreg inst 0x4e201c00
  | .orrV16b => encodeThreeVreg inst 0x4ea01c00
  | .eorV16b => encodeThreeVreg inst 0x6e201c00
  | .shlV4sImm => encodeVshiftImm inst 0x4f005400 32 false
  | .ushrV4sImm => encodeVshiftImm inst 0x6f000400 32 true
  | .sshrV4sImm => encodeVshiftImm inst 0x4f000400 32 true
  | .shlV2dImm => encodeVshiftImm inst 0x4f005400 64 false
  | .ushrV2dImm => encodeVshiftImm inst 0x6f000400 64 true
  | .sshrV2dImm => encodeVshiftImm inst 0x4f000400 64 true
  -- mov vd.16b, vm.16b is orr vd.16b, vm.16b, vm.16b
  | .movV16b => do
    let rm ← inst.number qreg .rm
    let rd ← inst.number qreg .rd
    return 0x4ea01c00 ||| rm <<< 16 ||| rm <<< 5 ||| rd
  | .dupV4sGpr => encodeTwoReg inst 0x4e040c00 qreg xreg
  | .dupV2dGpr => encodeTwoReg inst 0x4e080c00 qreg xreg
  | .dupV4sFpr => encodeTwoReg inst 0x4e040400 qreg freg
  | .dupV2dFpr => encodeTwoReg inst 0x4e080400 qreg freg
  | .addvS4s => encodeTwoReg inst 0x4eb1b800 freg qreg
  | .addpD2d => encodeTwoReg inst 0x5ef1b800 freg qreg
  | .faddpV4s => encodeThreeVreg inst 0x6e20d400
  | .faddpS2s => encodeTwoReg inst 0x7e30d800 freg qreg
  | .faddpD2d => encodeTwoReg inst 0x7e70d800 freg qreg
  | .strqSpOffset => encodeQMemOffset inst 0x3d800000 (some 31)
  | .ldrqSpOffset => encodeQMemOffset inst 0x3dc00000 (some 31)
  | .strqRegOffset => encodeQMemOffset inst 0x3d800000 none
  | .ldrqRegOffset => encodeQMemOffset inst 0x3dc00000 none
  | .strdSpOffset => encodeFpMemOffset inst 0xfd000000 8 (some 31)
  | .ldrdSpOffset => encodeFpMemOffset inst 0xfd400000 8 (some 31)
  | .strsSpOffset => encodeFpMemOffset inst 0xbd000000 4 (some 31)
  | .ldrsSpOffset => encodeFpMemOffset inst 0xbd400000 4 (some 31)
  | .strdRegOffset => encodeFpMemOffset inst 0xfd000000 8 none
  | .ldrdRegOffset => encodeFpMemOffset inst 0xfd400000 8 none
  | .strsRegOffset => encodeFpMemOffset inst 0xbd000000 4 none
  | .ldrsRegOffset => encodeFpMemOffset inst 0xbd400000 4 none
  | .cmp => encodeCmp inst
  | .strPreSp => encodeStrPreSp inst
  | .ldrPostSp => encodeLdrPostSp inst
  | .subSpImm => encodeSpImm inst 0xd10003ff
  | .addSpImm => encodeSpImm inst 0x910003ff
  | .addSpOffset => encodeAddSpOffset inst
  | .strSpOffset => encodeMemOffset inst 0xf9000000 8 (some 31)
  | .ldrSpOffset => encodeMemOffset inst 0xf9400000 8 (some 31)
  | .strwSpOffset => encodeMemOffset inst 0xb9000000 4 (some 31)
  | .ldrwSpOffset => encodeMemOffset inst 0xb9400000 4 (some 31)
  | .strhSpOffset => encodeMemOffset inst 0x79000000 2 (some 31)
  | .ldrhSpOffset => encodeMemOffset inst 0x79400000 2 (some 31)
  | .strbSpOffset => encodeMemOffset inst 0x39000000 1 (some 31)
  | .ldrbSpOffset => encodeMemOffset inst 0x39400000 1 (some 31)
  | .ldrStackArg => encodeSpOffset inst 0xf94003e0
  | .strRegOffset => encodeMemOffset inst 0xf9000000 8 none
  | .ldrRegOffset => encodeMemOffset inst 0xf9400000 8 none
  | .strwRegOffset => encodeMemOffset inst 0xb9000000 4 none
  | .ldrwRegOffset => encodeMemOffset inst 0xb9400000 4 none
  | .strhRegOffset => encodeMemOffset inst 0x79000000 2 none
  | .ldrhRegOffset => encodeMemOffset inst 0x79400000 2 none
  | .strbRegOffset => encodeMemOffset inst 0x39000000 1 none
  | .ldrbRegOffset => encodeMemOffset inst 0x39400000 1 none
  | .svc => encodeSvc inst
  | .mrsTpidr => do
    let rd ← inst.number xreg .rd
    return 0xd53bd040 ||| rd
  | .blr => do
    let rn ← inst.number xreg .rn
    return 0xd63f0000 ||| rn <<< 5
  | .cset => encodeCset inst
  | .ret => some 0xd65f03c0
  | .brk => some 0xd4200000
  -- calls, address materialisations and branches are not of this kind
  | _ => none
example : encodeFixedInst (.binary .lsr (.gpr 9) (.gpr 10) (.gpr 12)) = some 0x9acc2549 := by decide

/-! ## Encodings and what they refer to -/

/-- A machine instruction as the encoder meets it: the attributes of a
    literal reference beside those of `Inst`, and hardware register numbers
    below 32, as the register parser and the allocator build them.  Here
    `succs` names blocks by their identity, not by their place. -/
structure MachineInst extends Inst where
  literalLabel : Option String := none
  literalBytes : Option (List UInt8) := none
  number_lt : ∀ key n, toInst.number xreg key = some n → n < 32

inductive FixupKind where
  | call26 | adrpPage21 | addLo12 | tprelHi12 | tprelLo12Nc
  deriving DecidableEq

/-- A field of the code that the linker fills in. -/
structure BinaryFixup where
  offset : Nat
  symbol : String
  kind : FixupKind
  deriving DecidableEq

structure BinaryEncoding where
  bytes : List UInt8
  fixups : List BinaryFixup
  deriving DecidableEq

/-- The offsets the layout has recorded: of the module's functions, of the
    blocks of the function being encoded, and of the module's literals. -/
structure BinarySerializationContext where
  functionOffsets : List (String × Nat)
  blockOffsets : List (Nat × Nat)
  literalOffsets : List (String × Nat)

/-- Why an instruction is refused.  `panic` stands for an `unwrap` or a
    register of the wrong kind, which abort the pass. -/
inductive EncodeError where
  /-- "unencodable AArch64 instruction ..." -/
  | unencodable (inst : Inst)
  /-- "call target is out of BL range" -/
  | callRange
  /-- "branch target is out of B range" -/
  | bRange
  /-- "branch target is out of CBNZ range" -/
  | cbnzRange
  /-- "branch target is out of B.cond range" -/
  | bCondRange
  /-- "... is out of the 16MiB pc-relative addressing range" -/
  | pcRelativeRange
  /-- "branch is missing its target blocks or condition code" -/
  | missingTargets
  /-- "branch target ... is outside the enclosing function" -/
  | outsideFunction (block : Nat)
  /-- "unknown literal label ..." -/
  | unknownLabel (label : String)
  /-- "adr_function target ... is not defined in this module" -/
  | undefinedFunction (symbol : String)
  | panic
  deriving DecidableEq

/-- `?`: the value, or the given error where there is none. -/
def orElse {α : Type} (x : Option α) (error : EncodeError) : Except EncodeError α :=
  match x with
  | some a => .ok a
  | none => .error error

def wordEncoding (word : Nat) (fixup : Option BinaryFixup) : BinaryEncoding :=
  ⟨toLE 4 word, fixup.toList⟩

/-! ## Branches -/

/-- The distance in words, as the encoders compute it: a signed difference
    divided towards zero. -/
def deltaWords (target pc : Nat) : Int := ((target : Int) - pc).tdiv 4

/-- The low `bits` bits of a word displacement that fits `bits` signed bits. -/
def displacement (bits : Nat) (target pc : Nat) (error : EncodeError) : Except EncodeError Nat :=
  if -2 ^ (bits - 1) ≤ deltaWords target pc ∧ deltaWords target pc < 2 ^ (bits - 1) then
    .ok (wrap 32 (deltaWords target pc) &&& (2 ^ bits - 1))
  else .error error

def encodeB (target pc : Nat) : Except EncodeError Nat := do
  let delta ← displacement 26 target pc .bRange
  return 0x14000000 ||| delta

def encodeCbnz (rn target pc : Nat) : Except EncodeError Nat := do
  let delta ← displacement 19 target pc .cbnzRange
  return 0xb5000000 ||| delta <<< 5 ||| rn

def encodeBCond (cond : ConditionCode) (target pc : Nat) : Except EncodeError Nat := do
  let delta ← displacement 19 target pc .bCondRange
  return 0x54000000 ||| delta <<< 5 ||| cond.encoding

/-- One machine word of a branch terminator. -/
inductive BranchWord where
  | b (target : Nat)
  | bCond (cond : ConditionCode) (target : Nat)
  | cbnz (target : Nat)
  deriving DecidableEq

/-- A branch's target block, the taken edge of a conditional one. -/
def Inst.target (inst : Inst) : Option Nat := inst.succs[0]?

/-- A conditional branch's not-taken block. -/
def Inst.notTaken (inst : Inst) : Option Nat := inst.succs[1]?

/-- The words a branch encodes to when `next` follows its block in the
    layout; `none` for an instruction that is not a branch, or one without
    its targets or condition. -/
def branchWords (next : Option Nat) (inst : Inst) : Option (List BranchWord) :=
  match inst.opcode with
  | .b => do
    let taken ← inst.target
    return if some taken = next then [] else [.b taken]
  | .cbnz => do
    let taken ← inst.target
    let notTaken ← inst.notTaken
    return if some notTaken = next then [.cbnz taken] else [.cbnz taken, .b notTaken]
  | .bCond => do
    let taken ← inst.target
    let notTaken ← inst.notTaken
    let cond ← inst.cond
    return if some notTaken = next then [.bCond cond taken]
      else if some taken = next then [.bCond cond.invert notTaken]
      else [.bCond cond taken, .b notTaken]
  | _ => none

def blockOffset (offsets : List (Nat × Nat)) (target : Nat) : Except EncodeError Nat :=
  orElse (offsets.lookup target) (.outsideFunction target)

/-- The word at `pc` of a branch of `inst`. -/
def encodeBranchWord (offsets : List (Nat × Nat)) (inst : Inst) (pc : Nat) :
    BranchWord → Except EncodeError Nat
  | .b target => do
    let target ← blockOffset offsets target
    encodeB target pc
  | .bCond cond target => do
    let target ← blockOffset offsets target
    encodeBCond cond target pc
  | .cbnz target => do
    let rn ← orElse (inst.number xreg .rn) .panic
    let target ← blockOffset offsets target
    encodeCbnz rn target pc

/-- The words of a branch one after another from `pc` on. -/
def encodeWords (offsets : List (Nat × Nat)) (inst : Inst) :
    Nat → List BranchWord → Except EncodeError (List UInt8)
  | _, [] => .ok []
  | pc, word :: words => do
    let word ← encodeBranchWord offsets inst pc word
    let bytes ← encodeWords offsets inst (pc + 4) words
    return toLE 4 word ++ bytes

def encodeBranch (offsets : List (Nat × Nat)) (next : Option Nat) (inst : Inst) (pc : Nat) :
    Except EncodeError BinaryEncoding := do
  let words ← orElse (branchWords next inst) .missingTargets
  let bytes ← encodeWords offsets inst pc words
  return ⟨bytes, []⟩

/-! ## Calls and addresses -/

/-- A call of a function of the module is a `bl` to it; any other callee is
    left to the linker. -/
def encodeCall (offsets : List (String × Nat)) (inst : Inst) (pc : Nat) :
    Except EncodeError BinaryEncoding := do
  let callee ← orElse inst.callee .panic
  match offsets.lookup callee with
  | some target =>
    let delta ← displacement 26 target pc .callRange
    return wordEncoding (0x94000000 ||| delta) none
  | none => return wordEncoding 0x94000000 (some ⟨pc % 2 ^ 32, callee, .call26⟩)

/-- `pc + delta` into `rd`: `adr rd, #0`, then two 12-bit immediates added or
    subtracted. -/
def encodePcRelativeAddress (rd : Nat) (delta : Int) : Except EncodeError BinaryEncoding :=
  if -2 ^ 24 ≤ delta ∧ delta < 2 ^ 24 then
    let lo12 := delta.natAbs &&& 0xfff
    let hi12 := (delta.natAbs >>> 12) &&& 0xfff
    let base := if delta < 0 then 0xd1000000 else 0x91000000
    .ok ⟨toLE 4 (0x10000000 ||| rd) ++ toLE 4 (base ||| lo12 <<< 10 ||| rd <<< 5 ||| rd) ++
      toLE 4 (base ||| 1 <<< 22 ||| hi12 <<< 10 ||| rd <<< 5 ||| rd), []⟩
  else .error .pcRelativeRange

def encodeAdrLiteral (offsets : List (String × Nat)) (inst : MachineInst) (pc : Nat) :
    Except EncodeError BinaryEncoding := do
  let label ← orElse inst.literalLabel .panic
  let target ← orElse (offsets.lookup label) (.unknownLabel label)
  let rd ← orElse (inst.number xreg .rd) .panic
  encodePcRelativeAddress rd ((target : Int) - pc)

def encodeAdrFunction (offsets : List (String × Nat)) (inst : Inst) (pc : Nat) :
    Except EncodeError BinaryEncoding := do
  let symbol ← orElse inst.callee .panic
  let target ← orElse (offsets.lookup symbol) (.undefinedFunction symbol)
  let rd ← orElse (inst.number xreg .rd) .panic
  encodePcRelativeAddress rd ((target : Int) - pc)

/-- `adrp rd, symbol` with its immediate left to the fixup. -/
def encodeAdrp (inst : Inst) (pc : Nat) : Except EncodeError BinaryEncoding := do
  let rd ← orElse (inst.number xreg .rd) .panic
  let symbol ← orElse inst.callee .panic
  return wordEncoding (0x90000000 ||| rd) (some ⟨pc % 2 ^ 32, symbol, .adrpPage21⟩)

/-- `add rd, rn, #0` with its immediate left to a fixup of the given kind. -/
def encodeAddSymbol (base : Nat) (kind : FixupKind) (inst : Inst) (pc : Nat) :
    Except EncodeError BinaryEncoding := do
  let rd ← orElse (inst.number xreg .rd) .panic
  let rn ← orElse (inst.number xreg .rn) .panic
  let symbol ← orElse inst.callee .panic
  return wordEncoding (base ||| rn <<< 5 ||| rd) (some ⟨pc % 2 ^ 32, symbol, kind⟩)

/-! ## Instructions -/

/-- The literal an instruction refers to, label and bytes. -/
def literalForInst (inst : MachineInst) : Option (String × List UInt8) :=
  if inst.opcode = .adrLiteral then do
    let label ← inst.literalLabel
    let bytes ← inst.literalBytes
    return (label, bytes)
  else none

/-- `encode_inst`, at `pc`, in a block that `next` follows. -/
def encodeInst (refs : BinarySerializationContext) (next : Option Nat) (pc : Nat)
    (inst : MachineInst) : Except EncodeError BinaryEncoding :=
  match inst.opcode with
  | .call => encodeCall refs.functionOffsets inst.toInst pc
  | .adrLiteral => encodeAdrLiteral refs.literalOffsets inst pc
  | .adrFunction => encodeAdrFunction refs.functionOffsets inst.toInst pc
  | .adrp => encodeAdrp inst.toInst pc
  | .addLo12 => encodeAddSymbol 0x91000000 .addLo12 inst.toInst pc
  | .addTprelHi12 => encodeAddSymbol 0x91400000 .tprelHi12 inst.toInst pc
  | .addTprelLo12Nc => encodeAddSymbol 0x91000000 .tprelLo12Nc inst.toInst pc
  | .b | .bCond | .cbnz => encodeBranch refs.blockOffsets next inst.toInst pc
  | _ => do
    let word ← orElse (encodeFixedInst inst.toInst) (.unencodable inst.toInst)
    return wordEncoding word none

/-- The byte length of an instruction that is not a branch. -/
def byteLenFor : Aarch64Opcode → Nat
  | .adrLiteral | .adrFunction => 12
  | _ => 4

/-- The byte length the layout passes predict. -/
def byteLen (next : Option Nat) (inst : Inst) : Nat :=
  match branchWords next inst with
  | some words => 4 * words.length
  | none => byteLenFor inst.opcode

end Crabbit.Aarch64
