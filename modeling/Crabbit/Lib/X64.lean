/-
  Crabbit.Lib.X64

  A part of the x86-64 instruction set: decoding of REX prefixes, ModRM and
  SIB bytes and displacements, and what the decoded instructions do to
  registers, memory and flags.

  The part is straight-line integer code: moves, loads and stores of every
  size, two-operand arithmetic, multiplication, division, shifts by `cl`,
  `setcc`, the stack. What is outside of it (rip-relative operands, the high
  byte registers, branches) does not decode here.
-/

import Crabbit.Lib.Bytes

namespace Crabbit.Lib.X64

/-! ## State -/

structure Flags where
  carry : Bool
  zero : Bool
  sign : Bool
  overflow : Bool
  parity : Bool
  deriving DecidableEq

/-- Registers by their number, rax=0 to r15=15; `flags` is `none` after an
    instruction that leaves some of them undefined. -/
structure State where
  regs : Nat → BitVec 64
  mem : BitVec 64 → UInt8
  flags : Option Flags

/-- Operand sizes. -/
inductive Size where
  | byte | word | dword | qword
  deriving DecidableEq

def Size.bytes : Size → Nat
  | .byte => 1
  | .word => 2
  | .dword => 4
  | .qword => 8

def Size.bits (size : Size) : Nat := 8 * size.bytes

/-- The low part of a value that an operand of this size holds. -/
def Size.low (size : Size) (value : BitVec 64) : BitVec 64 :=
  (value.setWidth size.bits).setWidth 64

@[simp] theorem Size.low_qword (value : BitVec 64) : Size.qword.low value = value := by
  show (value.setWidth 64).setWidth 64 = value
  rw [BitVec.setWidth_eq, BitVec.setWidth_eq]

namespace State

def setReg (s : State) (n : Nat) (value : BitVec 64) : State :=
  { s with regs := fun m => if m = n then value else s.regs m }

@[simp] theorem setReg_regs_self (s : State) (n : Nat) (value : BitVec 64) :
    (s.setReg n value).regs n = value := by
  simp [setReg]

theorem setReg_regs_of_ne (s : State) {m n : Nat} (value : BitVec 64) (h : m ≠ n) :
    (s.setReg n value).regs m = s.regs m := by
  simp [setReg, h]

def withFlags (s : State) (flags : Option Flags) : State := { s with flags := flags }

@[simp] theorem withFlags_regs (s : State) (flags : Option Flags) :
    (s.withFlags flags).regs = s.regs := rfl

/-- The bytes from `a` on, zero-extended; addresses wrap. -/
def load (s : State) (size : Size) (a : BitVec 64) : BitVec 64 :=
  BitVec.ofNat 64 (ofLE ((List.range size.bytes).map fun i => s.mem (a + BitVec.ofNat 64 i)))

/-- The low bytes of a value, written from `a` on. -/
def store (s : State) (size : Size) (a value : BitVec 64) : State :=
  { s with mem := fun b =>
      if (b - a).toNat < size.bytes then
        (toLE size.bytes value.toNat).getD (b - a).toNat 0
      else s.mem b }

/-- A write of a register of an operand size: 32 bits clear the upper half,
    fewer leave the rest alone. -/
def writeReg (s : State) (size : Size) (n : Nat) (value : BitVec 64) : State :=
  match size with
  | .qword => s.setReg n value
  | .dword => s.setReg n (Size.dword.low value)
  | .word => s.setReg n ((s.regs n &&& ~~~ 0xffff#64) ||| Size.word.low value)
  | .byte => s.setReg n ((s.regs n &&& ~~~ 0xff#64) ||| Size.byte.low value)

end State

/-! ## Instructions -/

/-- `[base + index * scale + disp]`. -/
structure MemRef where
  base : Option Nat
  index : Option (Nat × Nat)
  disp : Int
  deriving DecidableEq

/-- A register or memory operand. -/
inductive Rm where
  | reg (n : Nat)
  | mem (ref : MemRef)
  deriving DecidableEq

inductive AluOp where
  | add | or | and | sub | xor | cmp | test
  deriving DecidableEq

inductive Instr where
  | movImm (dst : Nat) (imm : BitVec 64)
  | mov (size : Size) (dst : Rm) (src : Nat)
  | load (size : Size) (dst : Nat) (src : Rm)
  /-- `movzx` from a size into a size. -/
  | movzx (src : Size) (size : Size) (dst : Nat) (rm : Rm)
  | alu (op : AluOp) (size : Size) (dst : Rm) (src : Nat)
  | aluImm (op : AluOp) (size : Size) (dst : Rm) (imm : Int)
  | imul (dst : Nat) (src : Rm)
  | neg (size : Size) (dst : Rm)
  | mul (src : Rm)
  | div (src : Rm)
  | idiv (src : Rm)
  | cqo
  | shl (size : Size) (dst : Rm)
  | shr (size : Size) (dst : Rm)
  | setcc (cc : Nat) (dst : Rm)
  | lea (size : Size) (dst : Nat) (ref : MemRef)
  | push (src : Nat)
  | pop (dst : Nat)

/-! ## Decoding -/

/-- The four bits of a REX prefix. -/
structure Rex where
  w : Bool := false
  r : Bool := false
  x : Bool := false
  b : Bool := false
  deriving DecidableEq

def parseRex (byte : UInt8) : Option Rex :=
  if byte >>> 4 = 4 then
    some ⟨byte &&& 8 ≠ 0, byte &&& 4 ≠ 0, byte &&& 2 ≠ 0, byte &&& 1 ≠ 0⟩
  else none

/-- A register field with its extension bit. -/
def extend (bit : Bool) (field : Nat) : Nat := field + if bit then 8 else 0

/-- A number of `n` bytes in two's complement. -/
def signed (n : Nat) (bytes : List UInt8) : Int :=
  if ofLE bytes < 2 ^ (8 * n - 1) then ofLE bytes else (ofLE bytes : Int) - 2 ^ (8 * n)

/-- A signed displacement or immediate of `n` bytes, and what follows it. -/
def takeSigned (n : Nat) (bytes : List UInt8) : Option (Int × List UInt8) :=
  if n ≤ bytes.length then some (signed n (bytes.take n), bytes.drop n) else none

/-- The displacement of an addressing mode. -/
def takeDisp (mode : Nat) (bytes : List UInt8) : Option (Int × List UInt8) :=
  if mode = 0 then some (0, bytes)
  else takeSigned (if mode = 1 then 1 else 4) bytes

/-- The operand a SIB byte names. -/
def decodeSib (rex : Rex) (mode : Nat) : List UInt8 → Option (Rm × List UInt8)
  | [] => none
  | sib :: rest =>
      let base := sib.toNat % 8
      let index := extend rex.x (sib.toNat / 8 % 8)
      let scaled := if index = 4 then none else some (index, 2 ^ (sib.toNat / 64))
      if mode = 0 ∧ base = 5 then
        (takeSigned 4 rest).map fun d => (.mem ⟨none, scaled, d.1⟩, d.2)
      else
        (takeDisp mode rest).map fun d => (.mem ⟨some (extend rex.b base), scaled, d.1⟩, d.2)

/-- The register field and the operand of a ModRM byte. -/
def decodeRm (rex : Rex) : List UInt8 → Option (Nat × Rm × List UInt8)
  | [] => none
  | modrm :: rest =>
      let mode := modrm.toNat / 64
      let reg := extend rex.r (modrm.toNat / 8 % 8)
      let rm := modrm.toNat % 8
      if mode = 3 then some (reg, .reg (extend rex.b rm), rest)
      else if rm = 4 then
        (decodeSib rex mode rest).map fun d => (reg, d.1, d.2)
      else if mode = 0 ∧ rm = 5 then none
      else
        (takeDisp mode rest).map fun d => (reg, .mem ⟨some (extend rex.b rm), none, d.1⟩, d.2)

/-- Whether the operand is a byte that the prefix lets one name: without a REX
    prefix 4 to 7 are the high bytes. -/
def isLowByte (hasRex : Bool) : Rm → Bool
  | .reg n => hasRex || n < 4
  | .mem _ => true

def aluOf (op : UInt8) : Option AluOp :=
  if op = 0x01 then some .add
  else if op = 0x09 then some .or
  else if op = 0x21 then some .and
  else if op = 0x29 then some .sub
  else if op = 0x31 then some .xor
  else if op = 0x39 then some .cmp
  else if op = 0x85 then some .test
  else none

/-- The two-byte opcodes, after `0f`. -/
def decodeTwo (size : Size) (rex : Rex) (hasRex : Bool) :
    List UInt8 → Option (Instr × List UInt8)
  | [] => none
  | op :: rest =>
      if op = 0xaf then
        (decodeRm rex rest).bind fun d =>
          if size = .qword then some (.imul d.1 d.2.1, d.2.2) else none
      else if op = 0xb6 then
        (decodeRm rex rest).bind fun d =>
          if isLowByte hasRex d.2.1 then some (.movzx .byte size d.1 d.2.1, d.2.2) else none
      else if op = 0xb7 then
        (decodeRm rex rest).map fun d => (.movzx .word size d.1 d.2.1, d.2.2)
      else if op >>> 4 = 9 then
        (decodeRm rex rest).bind fun d =>
          if isLowByte hasRex d.2.1 then some (.setcc (op.toNat % 16) d.2.1, d.2.2) else none
      else none

/-- The group of `f7`, by the register field. -/
def groupF7 (size : Size) (rm : Rm) (field : Nat) : Option Instr :=
  if field = 3 then some (.neg size rm)
  else if size = .qword then
    if field = 4 then some (.mul rm)
    else if field = 6 then some (.div rm)
    else if field = 7 then some (.idiv rm)
    else none
  else none

/-- The group of `d3`, by the register field. -/
def groupD3 (size : Size) (rm : Rm) (field : Nat) : Option Instr :=
  if field = 4 then some (.shl size rm)
  else if field = 5 then some (.shr size rm)
  else none

/-- The group of `81`, by the register field. -/
def group81 (field : Nat) : Option AluOp :=
  if field = 0 then some .add
  else if field = 5 then some .sub
  else none

def decodeOpcode (size : Size) (rex : Rex) (hasRex : Bool) :
    List UInt8 → Option (Instr × List UInt8)
  | [] => none
  | op :: rest =>
      if op = 0x0f then decodeTwo size rex hasRex rest
      else if op >>> 3 = 0x17 then
        if size = .qword ∧ 8 ≤ rest.length then
          some (.movImm (extend rex.b (op.toNat % 8)) (BitVec.ofNat 64 (ofLE (rest.take 8))),
            rest.drop 8)
        else none
      else if op >>> 3 = 0x0a then some (.push (extend rex.b (op.toNat % 8)), rest)
      else if op >>> 3 = 0x0b then some (.pop (extend rex.b (op.toNat % 8)), rest)
      else if op = 0x99 then if size = .qword then some (.cqo, rest) else none
      else
        (decodeRm rex rest).bind fun d =>
          if op = 0x88 then
            if isLowByte hasRex (.reg d.1) && isLowByte hasRex d.2.1 then
              some (.mov .byte d.2.1 d.1, d.2.2)
            else none
          else if op = 0x89 then some (.mov size d.2.1 d.1, d.2.2)
          else if op = 0x8b then some (.load size d.1 d.2.1, d.2.2)
          else if op = 0x8d then
            match d.2.1 with
            | .mem ref => some (.lea size d.1 ref, d.2.2)
            | .reg _ => none
          else if op = 0xf7 then (groupF7 size d.2.1 (d.1 % 8)).map fun i => (i, d.2.2)
          else if op = 0xd3 then (groupD3 size d.2.1 (d.1 % 8)).map fun i => (i, d.2.2)
          else if op = 0x81 then
            (group81 (d.1 % 8)).bind fun alu =>
              (takeSigned 4 d.2.2).map fun imm => (.aluImm alu size d.2.1 imm.1, imm.2)
          else (aluOf op).map fun alu => (.alu alu size d.2.1 d.1, d.2.2)

/-- The operand size the prefixes select. -/
def operandSize (rex : Rex) (opsize : Bool) : Size :=
  if rex.w then .qword else if opsize then .word else .dword

def decodeRex (opsize : Bool) : List UInt8 → Option (Instr × List UInt8)
  | [] => none
  | byte :: rest =>
      match parseRex byte with
      | some rex => decodeOpcode (operandSize rex opsize) rex true rest
      | none => decodeOpcode (operandSize {} opsize) {} false (byte :: rest)

/-- The first instruction of a byte string, and what follows it. -/
def decode : List UInt8 → Option (Instr × List UInt8)
  | [] => none
  | byte :: rest =>
      if byte = 0x66 then decodeRex true rest else decodeRex false (byte :: rest)

/-! ## Execution -/

def MemRef.address (ref : MemRef) (s : State) : BitVec 64 :=
  ref.base.elim 0 s.regs +
    ref.index.elim 0 (fun i => s.regs i.1 * BitVec.ofNat 64 i.2) + BitVec.ofInt 64 ref.disp

/-- The value of an operand, zero-extended. -/
def Rm.read (s : State) (size : Size) : Rm → BitVec 64
  | .reg n => size.low (s.regs n)
  | .mem ref => s.load size (ref.address s)

def Rm.write (s : State) (size : Size) (value : BitVec 64) : Rm → State
  | .reg n => s.writeReg size n value
  | .mem ref => s.store size (ref.address s) value

/-- Even parity of the low byte. -/
def evenParity {w : Nat} (v : BitVec w) : Bool :=
  ((List.range 8).filter v.getLsbD).length % 2 == 0

def flagsOf {w : Nat} (v : BitVec w) (carry overflow : Bool) : Flags where
  carry := carry
  zero := v == 0
  sign := v.msb
  overflow := overflow
  parity := evenParity v

def addFlags {w : Nat} (a b : BitVec w) : Flags :=
  flagsOf (a + b) ((a + b).ult a) (a.msb == b.msb && (a + b).msb != a.msb)

def subFlags {w : Nat} (a b : BitVec w) : Flags :=
  flagsOf (a - b) (a.ult b) (a.msb != b.msb && (a - b).msb != a.msb)

/-- The result and the flags. -/
def AluOp.compute {w : Nat} (a b : BitVec w) : AluOp → BitVec w × Flags
  | .add => (a + b, addFlags a b)
  | .sub => (a - b, subFlags a b)
  | .cmp => (a - b, subFlags a b)
  | .or => (a ||| b, flagsOf (a ||| b) false false)
  | .and => (a &&& b, flagsOf (a &&& b) false false)
  | .test => (a &&& b, flagsOf (a &&& b) false false)
  | .xor => (a ^^^ b, flagsOf (a ^^^ b) false false)

def AluOp.writes : AluOp → Bool
  | .cmp => false
  | .test => false
  | _ => true

def execAlu (op : AluOp) (size : Size) (dst : Rm) (src : BitVec 64) (s : State) : State :=
  let out := op.compute ((dst.read s size).setWidth size.bits) (src.setWidth size.bits)
  (if op.writes then dst.write s size (out.1.setWidth 64) else s).withFlags (some out.2)

/-- A condition code by its encoding; odd codes negate the even ones. -/
def condHolds (cc : Nat) (f : Flags) : Bool :=
  let base := match cc / 2 with
    | 0 => f.overflow
    | 1 => f.carry
    | 2 => f.zero
    | 3 => f.carry || f.zero
    | 4 => f.sign
    | 5 => f.parity
    | 6 => f.sign != f.overflow
    | _ => f.zero || (f.sign != f.overflow)
  base != decide (cc % 2 = 1)

/-- The count a shift by `cl` uses. -/
def shiftCount (size : Size) (s : State) : Nat :=
  (s.regs 1).toNat % (if size = .qword then 64 else 32)

/-- A shift; a count of zero leaves the flags alone. -/
def execShift (f : BitVec 64 → Nat → BitVec 64) (size : Size) (dst : Rm) (s : State) : State :=
  (dst.write s size (f (dst.read s size) (shiftCount size s))).withFlags
    (if shiftCount size s = 0 then s.flags else none)

/-- The dividend in `rdx:rax`. -/
def dividend (s : State) : BitVec 128 := s.regs 2 ++ s.regs 0

/-- One instruction; `none` where it faults or reads undefined flags. -/
def exec (s : State) : Instr → Option State
  | .movImm dst imm => some (s.setReg dst imm)
  | .mov size dst src => some (dst.write s size (s.regs src))
  | .load size dst src => some (s.writeReg size dst (src.read s size))
  | .movzx src size dst rm => some (s.writeReg size dst (rm.read s src))
  | .alu op size dst src => some (execAlu op size dst (s.regs src) s)
  | .aluImm op size dst imm => some (execAlu op size dst (BitVec.ofInt 64 imm) s)
  | .imul dst src =>
      some ((s.setReg dst (s.regs dst * src.read s .qword)).withFlags none)
  | .neg size dst =>
      let a := (dst.read s size).setWidth size.bits
      some ((dst.write s size ((0 - a).setWidth 64)).withFlags (some (subFlags 0 a)))
  | .mul src =>
      let product := (s.regs 0).toNat * (src.read s .qword).toNat
      some (((s.setReg 0 (BitVec.ofNat 64 product)).setReg 2
        (BitVec.ofNat 64 (product / 2 ^ 64))).withFlags none)
  | .div src =>
      let d := (src.read s .qword).toNat
      if d = 0 ∨ 2 ^ 64 ≤ (dividend s).toNat / d then none
      else some (((s.setReg 0 (BitVec.ofNat 64 ((dividend s).toNat / d))).setReg 2
        (BitVec.ofNat 64 ((dividend s).toNat % d))).withFlags none)
  | .idiv src =>
      let d := (src.read s .qword).toInt
      let q := (dividend s).toInt.tdiv d
      if d = 0 ∨ q < -2 ^ 63 ∨ 2 ^ 63 ≤ q then none
      else some (((s.setReg 0 (BitVec.ofInt 64 q)).setReg 2
        (BitVec.ofInt 64 ((dividend s).toInt.tmod d))).withFlags none)
  | .cqo => some (s.setReg 2 (if (s.regs 0).msb then BitVec.allOnes 64 else 0))
  | .shl size dst => some (execShift (fun v n => v <<< n) size dst s)
  | .shr size dst => some (execShift (fun v n => v >>> n) size dst s)
  | .setcc cc dst => s.flags.map fun f =>
      dst.write s .byte (if condHolds cc f then 1 else 0)
  | .lea size dst ref => some (s.writeReg size dst (ref.address s))
  | .push src => some
      ((s.setReg 4 (s.regs 4 - 8)).store .qword (s.regs 4 - 8) (s.regs src))
  | .pop dst => some ((s.setReg 4 (s.regs 4 + 8)).setReg dst (s.load .qword (s.regs 4)))

/-- Decoding and executing a byte string from its start to its end. -/
inductive Runs : List UInt8 → State → State → Prop where
  | done (s : State) : Runs [] s s
  | step {bytes rest : List UInt8} {i : Instr} {s s' s'' : State}
      (decoded : decode bytes = some (i, rest)) (executed : exec s i = some s')
      (then_ : Runs rest s' s'') : Runs bytes s s''

end Crabbit.Lib.X64
