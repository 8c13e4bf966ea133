/-
  Crabbit.X86.WordMachine

  The instructions that selection emits for words in registers, and what they do
  on virtual registers: what the encoder's ops say of hardware registers.
-/

import Crabbit.Isel.LoweredValue
import Crabbit.X86.EncodeSound
import Crabbit.X86.LowerGep

namespace Crabbit.X86

open Crabbit.Lib Crabbit.Lib.X64
open Crabbit.Llvm (ICmpPredicate Ty)
open Crabbit.Isel (WordOp)

/-! ## Instructions -/

/-- An instruction as it is selected: with the bytes of the literal it names. -/
structure SelectedInst extends Inst where
  literalBytes : Option (List UInt8) := none
  deriving DecidableEq

namespace SelectedInst

def plain (inst : Inst) : SelectedInst := { inst with }

def cmp (rn rm : Register) : SelectedInst := { opcode := .cmp, rn := some rn, rm := some rm }

def cset (rd : Register) (cond : ConditionCode) : SelectedInst :=
  { opcode := .cset, rd := some rd, cond := some cond }

def adrLiteral (rd : Register) (label : String) (bytes : List UInt8) : SelectedInst :=
  { opcode := .adrLiteral, rd := some rd, literalLabel := some label, literalBytes := some bytes }

end SelectedInst

/-- The opcode of an operation on words; an arithmetic shift has none, so no
    sequence of this back end names one. -/
def wordOpcode : WordOp → X86_64Opcode
  | .add => .add
  | .sub => .sub
  | .mul => .mul
  | .umulh => .umulh
  | .and => .and
  | .or => .or
  | .xor => .xor
  | .shl => .shl
  | .lsr => .lsr
  | .asr => .ud2

/-- `condition_code`. -/
def conditionCode : ICmpPredicate → ConditionCode
  | .eq => .e
  | .ne => .ne
  | .ult => .b
  | .uge => .ae
  | .ule => .be
  | .ugt => .a
  | .slt => .l
  | .sge => .ge
  | .sle => .le
  | .sgt => .g

/-- `materialize_u64_immediate`: `movabs` carries all 64 bits. -/
def materializeU64Immediate (dst : Register) (imm : Nat) : List SelectedInst :=
  [.plain (.movImm dst imm)]

/-- What the back end emits; it supports no floating point. -/
def target : Isel.Target where
  Register := Register
  Inst := SelectedInst
  virtualGpr id := .virtualGpr id
  binary op rd rn rm := .plain (.binary (wordOpcode op) rd rn rm)
  cmp := .cmp
  cset rd predicate := .cset rd (conditionCode predicate)
  materializeU64Immediate
  addSpOffset rd offset := .plain (.addSpOffset rd offset)
  adrLiteral := .adrLiteral
  fp := none

/-! ## The machine -/

structure WordState where
  regs : Register → BitVec 64
  flags : Option Flags
  /-- Where the literals are. -/
  literals : String → BitVec 64

namespace WordState

def read (s : WordState) (r : Register) : BitVec 128 := (s.regs r).setWidth 128

def word (s : WordState) (r : Register) : BitVec 64 := (s.read r).setWidth 64

def setReg (s : WordState) (r : Register) (v : BitVec 64) : WordState :=
  { s with regs := Function.update s.regs r v }

theorem read_setReg (s : WordState) (r : Register) (v : BitVec 64) :
    (s.setReg r v).read = Function.update s.read r (v.setWidth 128) := by
  funext r'
  show (Function.update s.regs r v r').setWidth 128 = _
  by_cases h : r' = r
  · subst h
    rw [Function.update_self, Function.update_self]
  · rw [Function.update_of_ne h, Function.update_of_ne h, read]

end WordState

/-- One instruction: what `perform` says of hardware registers, the flags
    undefined after the ops that do not keep them. -/
def step (inst : SelectedInst) (s : WordState) : Option WordState :=
  match inst.opcode with
  | .movImm => do
    let rd ← inst.rd
    let imm ← inst.imm
    some (s.setReg rd (BitVec.ofNat 64 imm))
  | .mov => do
    let rd ← inst.rd
    let rm ← inst.rm
    some (s.setReg rd (s.word rm))
  | .cmp => do
    let rn ← inst.rn
    let rm ← inst.rm
    some { s with flags := some (compareFlags (s.word rn) (s.word rm)) }
  | .cset => do
    let rd ← inst.rd
    let cond ← inst.cond
    let flags ← s.flags
    some (s.setReg rd (Isel.bit (condHolds cond.encoding flags)))
  | .addSpOffset => do
    let rd ← inst.rd
    let imm ← inst.imm
    some (s.setReg rd (s.word RSP + BitVec.ofNat 64 imm))
  | .adrLiteral => do
    let rd ← inst.rd
    let label ← inst.literalLabel
    some (s.setReg rd (s.literals label))
  | opcode => do
    let rd ← inst.rd
    let rn ← inst.rn
    let rm ← inst.rm
    let v ← binaryResult (s.word rn) (s.word rm) opcode
    some { s.setReg rd v with flags := if keepsFlags opcode then s.flags else none }

/-! ## The laws -/

/-- The condition of a predicate reads it off the flags of a comparison. -/
theorem condHolds_conditionCode (a b : BitVec 64) (predicate : ICmpPredicate) :
    condHolds (conditionCode predicate).encoding (compareFlags a b) =
      Isel.compares predicate a b := by
  rw [condHolds_compareFlags, Isel.compares_eq_bitVecCompare]
  cases predicate <;> rfl

/-- What the machine needs of an instruction that writes a word. -/
theorem writes_of_step {inst : SelectedInst} {rd : Register}
    (h : ∀ s, ∃ v, step inst s = some (s.setReg rd v)) :
    Isel.Writes step WordState.read [inst] rd := by
  intro s
  obtain ⟨v, hv⟩ := h s
  exact ⟨_, v, by rw [Isel.runInsts, hv]; rfl, s.read_setReg rd v⟩

/-- A virtual register has one number. -/
theorem isVirtual_id {i : Nat} {r : Register} (h : Isel.IsVirtual target i r) :
    r = .virtualGpr i := by
  rcases h with rfl | ⟨F, hF, -⟩
  · rfl
  · cases hF

/-- The machine that selection is proved against. -/
def machine : Isel.Machine target where
  State := WordState
  step
  read := WordState.read
  condition s predicate := s.flags.map (condHolds (conditionCode predicate).encoding)
  has op := op ≠ .asr
  virtual_inj := by
    intro i j r hi hj
    have heq := (isVirtual_id hi).symm.trans (isVirtual_id hj)
    exact (Register.virtual.inj heq).1
  step_binary := by
    intro op hop s d a b
    cases op with
    | asr => exact absurd rfl hop
    | _ => exact ⟨_, rfl, s.read_setReg _ _⟩
  step_cmp s a b := by
    refine ⟨{ s with flags := some (compareFlags (s.word a) (s.word b)) }, rfl, rfl, fun p => ?_⟩
    exact congrArg some (condHolds_conditionCode _ _ p)
  step_cset := by
    intro s predicate holds h d
    obtain ⟨flags, hflags, rfl⟩ := Option.map_eq_some_iff.mp h
    refine ⟨s.setReg (.virtualGpr d) (Isel.bit (condHolds (conditionCode predicate).encoding flags)),
      ?_, s.read_setReg _ _, rfl⟩
    show (s.flags.bind fun flags => _) = _
    rw [hflags]
    rfl
  run_immediate s d v := ⟨_, rfl, s.read_setReg _ _⟩
  addSpOffset d offset := writes_of_step fun s => ⟨_, rfl⟩
  adrLiteral d label bytes := writes_of_step fun s => ⟨_, rfl⟩
  fpLaws F hF := by cases hF

end Crabbit.X86
