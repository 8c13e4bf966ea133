/-
  Crabbit.X86.FrameLower

  Prologue and epilogues of x86-64 functions (`x86_64_frame_lower.rs`), and
  what instruction selection and register allocation leave the pass with.
-/

import Crabbit.X86.Ops

namespace Crabbit.X86

/-- A function after register allocation: the entry block, the other blocks
    in layout order, and the frame size the allocator has recorded. -/
structure MachineFunc where
  entry : List Inst
  others : List (List Inst)
  stackSize : Nat

/-! ## The pass -/

/-- Callee-saved registers the allocator hands out (`rbx`, `r12`, `r13`,
    `r14`) and the spill scratch `r15`, by hardware number. -/
def calleeSaved : List Nat := [3, 12, 13, 14, 15]

def CALLEE_SAVED_GPRS : List Register := calleeSaved.map Register.gpr

def Inst.isStackArgLoad (inst : Inst) : Bool := inst.opcode == .ldrStackArg

def prologue (stackSize : Nat) : List Inst :=
  CALLEE_SAVED_GPRS.map Inst.push ++ (if 0 < stackSize then [.subSpImm stackSize] else [])

def epilogue (stackSize : Nat) : List Inst :=
  (if 0 < stackSize then [.addSpImm stackSize] else []) ++ CALLEE_SAVED_GPRS.reverse.map Inst.pop

/-- Incoming stack-argument loads address memory relative to the entry `rsp`;
    the prologue goes after the run of them at the head of the entry block. -/
def insertPrologue (entry : List Inst) (stackSize : Nat) : List Inst :=
  entry.takeWhile Inst.isStackArgLoad ++ prologue stackSize ++
    entry.dropWhile Inst.isStackArgLoad

/-- An epilogue before every `ret` of a block. -/
def insertBlockEpilogues (stackSize : Nat) : List Inst → List Inst
  | [] => []
  | inst :: block =>
    if inst.opcode = .ret then epilogue stackSize ++ inst :: insertBlockEpilogues stackSize block
    else inst :: insertBlockEpilogues stackSize block

/-- The blocks of the function with its frame, the entry block first. -/
def lowerFunctionFrame (f : MachineFunc) : List (List Inst) :=
  (insertPrologue f.entry f.stackSize :: f.others).map (insertBlockEpilogues f.stackSize)

/-! ## Operations as the frame sees them -/

/-- What an operation means for the frame, with the operands that matter:
    `load` and `store` are the `rsp`-relative accesses of so many bytes,
    `compute rd` is any other operation that writes at most `rd`. -/
inductive FrameOp where
  | push (reg : Register)
  | pop (reg : Register)
  | subSp (bytes : Nat)
  | addSp (bytes : Nat)
  | stackArg (reg : Register) (off : Nat)
  | load (size : Nat) (reg : Register) (off : Nat)
  | store (size : Nat) (reg : Register) (off : Nat)
  | call
  | pointerStore
  | compute (rd : Option Register)
  | jump (target : Nat)
  | branch (target : Nat)
  | ret
  | trap
  deriving DecidableEq

namespace Inst

/-- An access of one register at one offset. -/
def spAccess (inst : Inst) (op : Register → Nat → FrameOp) : Option FrameOp :=
  inst.rd.bind fun reg => inst.imm.map fun off => op reg off

/-- `none` for an operation that lacks an attribute the encoder requires. -/
def frameOp (inst : Inst) : Option FrameOp :=
  match inst.opcode with
  | .push => inst.rd.map .push
  | .pop => inst.rd.map .pop
  | .subSpImm => inst.imm.map .subSp
  | .addSpImm => inst.imm.map .addSp
  | .ldrStackArg => inst.spAccess .stackArg
  | .ldrSpOffset => inst.spAccess (.load 8)
  | .ldrwSpOffset => inst.spAccess (.load 4)
  | .ldrhSpOffset => inst.spAccess (.load 2)
  | .ldrbSpOffset => inst.spAccess (.load 1)
  | .strSpOffset => inst.spAccess (.store 8)
  | .strwSpOffset => inst.spAccess (.store 4)
  | .strhSpOffset => inst.spAccess (.store 2)
  | .strbSpOffset => inst.spAccess (.store 1)
  | .strRegOffset | .strwRegOffset | .strhRegOffset | .strbRegOffset => some .pointerStore
  | .call | .callReg => some .call
  | .jmp => inst.target.map .jump
  | .jcc | .testJnz => inst.target.map .branch
  | .ret => some .ret
  | .ud2 => some .trap
  | .cmp => some (.compute none)
  | .movImm | .mov | .add | .sub | .mul | .umulh | .sdiv | .udiv | .and | .or | .xor | .shl
  | .lsr | .cset | .addSpOffset | .ldrRegOffset | .ldrwRegOffset | .ldrhRegOffset
  | .ldrbRegOffset | .adrLiteral | .adrFunction => some (.compute inst.rd)

theorem spAccess_eq_some {inst : Inst} {op : Register → Nat → FrameOp} {fop : FrameOp}
    (h : inst.spAccess op = some fop) :
    ∃ reg off, inst.rd = some reg ∧ inst.imm = some off ∧ fop = op reg off := by
  unfold spAccess at h
  cases hrd : inst.rd with
  | none => simp [hrd] at h
  | some reg =>
    cases himm : inst.imm with
    | none => simp [hrd, himm] at h
    | some off =>
      simp only [hrd, himm, Option.bind_some, Option.map_some, Option.some.injEq] at h
      exact ⟨reg, off, rfl, rfl, h.symm⟩

theorem frameOp_of_ret {inst : Inst} (h : inst.opcode = .ret) : inst.frameOp = some .ret := by
  simp only [frameOp, h]

theorem frameOp_of_isStackArgLoad {inst : Inst} {fop : FrameOp}
    (h : inst.isStackArgLoad = true) (hop : inst.frameOp = some fop) :
    ∃ reg off, fop = .stackArg reg off := by
  have hopcode : inst.opcode = .ldrStackArg := beq_iff_eq.mp h
  simp only [frameOp, hopcode] at hop
  obtain ⟨reg, off, -, -, rfl⟩ := spAccess_eq_some hop
  exact ⟨reg, off, rfl⟩

end Inst

/-! ## The shape of a function after allocation -/

/-- Bytes by which `rsp` is lowered after an operation, when it was lowered
    by `m` before: a call sequence lowers `rsp` by its outgoing stack
    arguments and raises it again. -/
def Inst.lowering (inst : Inst) (m : Nat) : Nat :=
  match inst.frameOp with
  | some (.subSp n) => n
  | some (.addSp _) => 0
  | _ => m

/-- `P m inst` for every operation `inst` of the code, `rsp` being lowered by
    `m` when it is reached. -/
def Along (P : Nat → Inst → Prop) : Nat → List Inst → Prop
  | _, [] => True
  | m, inst :: code => P m inst ∧ Along P (inst.lowering m) code

/-- Bytes by which `rsp` is lowered at the end of the code. -/
def loweringAfter (m : Nat) (code : List Inst) : Nat :=
  code.foldl (fun m inst => inst.lowering m) m

/-- What instruction selection emits, `rsp` being lowered by `m`: `rsp` is
    lowered for one call at a time and by a multiple of 16, raised by the same
    amount, and not otherwise written; stores inside a call sequence are those
    of its outgoing arguments; blocks are left with `rsp` raised, and none of
    them for the entry block. -/
def IselShape (m : Nat) (inst : Inst) : Prop :=
  match inst.frameOp with
  | some (.push _) | some (.pop _) => False
  | some (.subSp n) => m = 0 ∧ n % 16 = 0
  | some (.addSp n) => n = m
  | some (.stackArg reg _) | some (.load _ reg _) => reg ≠ RSP
  | some (.store n _ off) => 0 < m → off + n ≤ m
  | some (.compute rd) => rd ≠ some RSP
  | some (.jump t) | some (.branch t) => m = 0 ∧ t ≠ 0
  | some .ret | some .trap => m = 0
  | some .call | some .pointerStore => True
  | none => False

/-- A function as instruction selection and register allocation leave it. -/
structure Allocated (f : MachineFunc) : Prop where
  aligned : f.stackSize % 16 = 0
  shape : ∀ code ∈ f.entry :: f.others, Along IselShape 0 code
  raised : ∀ code ∈ f.entry :: f.others, loweringAfter 0 code = 0

/-! ## The condition -/

/-- Incoming stack arguments are loaded at the head of the entry block only;
    local slots and spill slots are accessed while `rsp` is not lowered and
    inside the frame. -/
def FrameAccess (stackSize m : Nat) (inst : Inst) : Prop :=
  match inst.frameOp with
  | some (.stackArg _ _) => False
  | some (.load n _ off) => m = 0 ∧ off + n ≤ stackSize
  | some (.store n _ off) => m = 0 → off + n ≤ stackSize
  | _ => True

/-- When the frame is right: the loads before the prologue write no
    callee-saved register, and the code after them satisfies
    `FrameAccess`. -/
structure FrameSafe (f : MachineFunc) : Prop where
  prefixDest : ∀ inst ∈ f.entry.takeWhile Inst.isStackArgLoad,
    ∀ r ∈ calleeSaved, inst.rd ≠ some (.gpr r)
  entry : Along (FrameAccess f.stackSize) 0 (f.entry.dropWhile Inst.isStackArgLoad)
  others : ∀ code ∈ f.others, Along (FrameAccess f.stackSize) 0 code

end Crabbit.X86
