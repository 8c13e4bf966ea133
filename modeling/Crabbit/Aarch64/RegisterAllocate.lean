/-
  Crabbit.Aarch64.RegisterAllocate

  The AArch64 linear-scan register allocator
  (`passes/aarch64/aarch64_register_allocate.rs`): register pools, live
  intervals, call-crossing values and the scan itself.
-/

import Crabbit.Aarch64.Ops
import Crabbit.Lib.Liveness
import Mathlib.Data.List.Sort

namespace Crabbit.Aarch64

open Crabbit.Lib

/-! ## Register pools -/

/-- Caller-saved GPRs, tried first. -/
def allocatableGprs : List Nat := [9, 10, 11, 12]

/-- Callee-saved GPRs. -/
def calleeSavedGprs : List Nat := [19, 20, 21, 22, 23, 24, 25, 26, 27, 28]

/-- Caller-saved FP pool. -/
def allocatableFprNumbers : List Nat := [16, 17, 18, 19, 23, 24, 25, 26, 27, 28, 29, 30, 31]

/-- Callee-saved FP registers: the low 64 bits of v8-v15. -/
def calleeSavedFprNumbers : List Nat := [8, 9, 10, 11, 12, 13, 14, 15]

/-- The register bank an interval allocates from. -/
inductive Bank where
  | gpr | fpr
  deriving DecidableEq

def bankOf : RegisterClass → Option Bank
  | .gpr64 => some .gpr
  | .fpr64 | .fpr32 | .simd128 => some .fpr
  | _ => none

/-- Pool indices below this are caller-saved, the rest callee-saved. -/
def callerPoolSize : Bank → Nat
  | .gpr => allocatableGprs.length
  | .fpr => allocatableFprNumbers.length

def poolSize : Bank → Nat
  | .gpr => allocatableGprs.length + calleeSavedGprs.length
  | .fpr => allocatableFprNumbers.length + calleeSavedFprNumbers.length

def isCalleeSavedIndex (bank : Bank) (physIndex : Nat) : Bool :=
  decide (callerPoolSize bank ≤ physIndex)

/-- The hardware number of pool index `physIndex`. -/
def poolNumber (bank : Bank) (physIndex : Nat) : Nat :=
  match bank with
  | .gpr =>
    if physIndex < allocatableGprs.length then allocatableGprs.getD physIndex 0
    else calleeSavedGprs.getD (physIndex - allocatableGprs.length) 0
  | .fpr =>
    if physIndex < allocatableFprNumbers.length then allocatableFprNumbers.getD physIndex 0
    else calleeSavedFprNumbers.getD (physIndex - allocatableFprNumbers.length) 0

/-- The bit of a callee-saved pool register in the saved-register mask:
    bits 0-31 are x0-x31, bits 32-63 are d0-d31. -/
def savedRegBit (bank : Bank) (physIndex : Nat) : Nat :=
  match bank with
  | .gpr => calleeSavedGprs.getD (physIndex - allocatableGprs.length) 0
  | .fpr => 32 + calleeSavedFprNumbers.getD (physIndex - allocatableFprNumbers.length) 0

def savedRegMaskBit (bank : Bank) (physIndex : Nat) : Nat := 1 <<< savedRegBit bank physIndex

/-! ## Operands -/

def virtualOperandsWithKind (inst : Inst) (kind : RegisterOperandKind) :
    List (RegKey × Nat × RegisterClass) :=
  inst.registerOperands.filterMap fun operand =>
    if operand.kind = kind then
      match operand.reg with
      | .virtual id cls => if (bankOf cls).isSome then some (operand.key, id, cls) else none
      | .physical _ => none
    else none

def virtualUseOperands (inst : Inst) : List (RegKey × Nat × RegisterClass) :=
  virtualOperandsWithKind inst .use

def virtualDefOperands (inst : Inst) : List (RegKey × Nat × RegisterClass) :=
  virtualOperandsWithKind inst .defn

def virtualUses (inst : Inst) : List Nat := (virtualUseOperands inst).map (·.2.1)

def virtualDefs (inst : Inst) : List Nat := (virtualDefOperands inst).map (·.2.1)

/-! ## Live intervals -/

/-- Successor block indices: those the instructions name, and the next block
    of the layout when no terminator ends the block. -/
def blockSuccessors (body : MachineBody) (index : Nat) : List Nat :=
  match body[index]? with
  | none => []
  | some block =>
    let named := (block.insts.flatMap (·.succs)).filter (· < body.length)
    if block.insts.any (·.isTerminator) = false ∧ index + 1 < body.length then
      named ++ [index + 1]
    else named

/-- The control-flow graph liveness runs over. -/
def flowGraph (body : MachineBody) : FlowGraph Inst Nat where
  blocks := body.map (·.insts)
  succ := blockSuccessors body
  uses := virtualUses
  defs := virtualDefs

/-- All instructions in layout order. -/
def allInsts (body : MachineBody) : List Inst := (body.map (·.insts)).flatten

/-- Layout index of the first instruction of block `b`. -/
def blockStart (body : MachineBody) (b : Nat) : Nat :=
  ((body.take b).map (·.insts.length)).sum

/-- The first and last layout index seen for each vreg. -/
abbrev Points := Nat → Option (Nat × Nat)

/-- Note `index` for every register of the set. -/
def notePoints (regs : Finset Nat) (index : Nat) (points : Points) : Points := fun v =>
  if v ∈ regs then
    match points v with
    | some (start, stop) => some (min start index, max stop index)
    | none => some (index, index)
  else points v

/-- The backward walk over one block whose first instruction has layout
    index `start`: note what is live after, used and defined at each
    instruction.  Returns the live set before the instructions. -/
def blockPoints (start : Nat) : List Inst → Finset Nat → Points → Finset Nat × Points
  | [], live, points => (live, points)
  | inst :: insts, live, points =>
    let (live, points) := blockPoints (start + 1) insts live points
    (live \ toSet (virtualDefs inst) ∪ toSet (virtualUses inst),
      notePoints (live ∪ toSet (virtualUses inst) ∪ toSet (virtualDefs inst)) start points)

/-- Points of the blocks from layout index `start` on; block `b` comes first. -/
def collectPoints (liveOut : Nat → Finset Nat) : Nat → Nat → List (List Inst) → Points → Points
  | _, _, [], points => points
  | b, start, insts :: blocks, points =>
    collectPoints liveOut (b + 1) (start + insts.length) blocks
      (blockPoints start insts (liveOut b) points).2

structure LiveInterval where
  vreg : Nat
  start : Nat
  stop : Nat
  deriving DecidableEq

/-- The order of the scan: start, then end, then vreg. -/
def LiveInterval.le (lhs rhs : LiveInterval) : Prop :=
  lhs.start < rhs.start ∨ lhs.start = rhs.start ∧
    (lhs.stop < rhs.stop ∨ lhs.stop = rhs.stop ∧ lhs.vreg ≤ rhs.vreg)

instance : DecidableRel LiveInterval.le := fun lhs rhs =>
  inferInstanceAs (Decidable (lhs.start < rhs.start ∨ lhs.start = rhs.start ∧
    (lhs.stop < rhs.stop ∨ lhs.stop = rhs.stop ∧ lhs.vreg ≤ rhs.vreg)))

/-- The operands of all instructions with their classes, uses of an
    instruction before its definitions. -/
def operandClasses (body : MachineBody) : List (Nat × RegisterClass) :=
  (allInsts body).flatMap fun inst =>
    ((virtualUseOperands inst) ++ (virtualDefOperands inst)).map (·.2)

/-- The class recorded for a vreg: that of its last operand. -/
def operandClass (body : MachineBody) (vreg : Nat) : Option RegisterClass :=
  ((operandClasses body).reverse.find? (·.1 == vreg)).map (·.2)

/-- The facts of `collect_live_intervals` the scan reads. -/
structure FunctionLiveness where
  insts : List Inst
  intervals : List LiveInterval
  classes : Nat → Option RegisterClass

def intervalsOf (vregs : List Nat) (points : Points) : List LiveInterval :=
  (vregs.filterMap fun v => (points v).map fun p => ⟨v, p.1, p.2⟩).insertionSort LiveInterval.le

def collectLiveIntervals (body : MachineBody) : Option FunctionLiveness :=
  (flowGraph body).liveSets.map fun facts =>
    { insts := allInsts body
      intervals := intervalsOf ((operandClasses body).map (·.1)).dedup
        (collectPoints (fun b => (facts b).2) 0 0 (body.map (·.insts)) fun _ => none)
      classes := operandClass body }

/-- Layout indices of the calls. -/
def callIndexes (insts : List Inst) : List Nat :=
  (insts.zipIdx.filter fun p => p.1.isCall).map (·.2)

def valuesLiveAcrossCalls (insts : List Inst) (intervals : List LiveInterval) : List Nat :=
  (intervals.filter fun interval =>
    (callIndexes insts).any fun callIndex =>
      interval.start < callIndex && callIndex < interval.stop).map (·.vreg)

/-! ## The scan -/

structure ActiveInterval where
  interval : LiveInterval
  physIndex : Nat
  deriving DecidableEq

inductive Allocation where
  | phys (physIndex : Nat)
  | spill (slot : Nat)
  deriving DecidableEq

/-- Spill weights: a total comparison and a strict order on them, as `f64`
    has; nothing is assumed of either. -/
structure SpillWeights where
  W : Type
  weightOf : Nat → W
  totalCmp : W → W → Ordering
  lt : W → W → Bool

/-- `Iterator::max_by`: the last of the maximal elements. -/
def maxBy {α : Type} (cmp : α → α → Ordering) : List α → Option α
  | [] => none
  | x :: xs => some (xs.foldl (fun best y => if cmp best y = .gt then best else y) x)

/-- `Iterator::min_by`: the first of the minimal elements. -/
def minBy {α : Type} (cmp : α → α → Ordering) : List α → Option α
  | [] => none
  | x :: xs => some (xs.foldl (fun best y => if cmp best y = .gt then y else best) x)

/-- Evict the eligible active interval that ends furthest away, if it
    outlives `current`.  Returns the victim and the remaining active list. -/
def spillFurthestEnd (current : LiveInterval) (active : List ActiveInterval)
    (eligible : ActiveInterval → Bool) : Option (ActiveInterval × List ActiveInterval) := do
  let (victim, index) ← maxBy (fun lhs rhs =>
      (compare lhs.1.interval.stop rhs.1.interval.stop).then
        (compare lhs.1.physIndex rhs.1.physIndex))
    (active.zipIdx.filter fun p => eligible p.1)
  if victim.interval.stop > current.stop then some (victim, active.eraseIdx index) else none

/-- Evict the eligible candidate of least weight, if it is cheaper than
    `current`. -/
def spillCheapestWeight (weights : SpillWeights) (current : LiveInterval)
    (active : List ActiveInterval) (eligible : ActiveInterval → Bool) :
    Option (ActiveInterval × List ActiveInterval) := do
  let (victim, index) ← minBy (fun lhs rhs =>
      (weights.totalCmp (weights.weightOf lhs.1.interval.vreg)
          (weights.weightOf rhs.1.interval.vreg)).then
        (compare lhs.1.interval.vreg rhs.1.interval.vreg))
    (active.zipIdx.filter fun p => eligible p.1)
  if weights.lt (weights.weightOf victim.interval.vreg) (weights.weightOf current.vreg) then
    some (victim, active.eraseIdx index)
  else none

/-- The victim of either policy. -/
def spillVictim (weights : Option SpillWeights) (current : LiveInterval)
    (active : List ActiveInterval) (eligible : ActiveInterval → Bool) :
    Option (ActiveInterval × List ActiveInterval) :=
  match weights with
  | none => spillFurthestEnd current active eligible
  | some weights => spillCheapestWeight weights current active eligible

/-- Take the slots for one value: the starting slot and the new count. -/
def takeSpillSlots (spillSlots : Nat) (cls : RegisterClass) : Nat × Nat :=
  if cls = .simd128 then
    let slot := (spillSlots + 1) - ((spillSlots + 1) &&& 1)
    (slot, slot + 2)
  else (spillSlots, spillSlots + 1)

def expireOldIntervals (currentStart : Nat) (active : List ActiveInterval) (free : List Nat) :
    List ActiveInterval × List Nat :=
  (active.filter fun a => decide (¬ a.interval.stop < currentStart),
    free ++ (active.filter fun a => decide (a.interval.stop < currentStart)).map (·.physIndex))

/-- Position in the free list of the register `linear_scan` takes. -/
def freePosition (bank : Bank) (crossing isQ : Bool) (free : List Nat) : Option Nat :=
  if crossing then free.findIdx? (isCalleeSavedIndex bank)
  else if isQ then free.findIdx? fun index => !isCalleeSavedIndex bank index
  else if free.isEmpty then none else some 0

/-- Which active intervals may be evicted. -/
def isEligible (bank : Bank) (crossing isQ : Bool) (candidate : ActiveInterval) : Bool :=
  if crossing then isCalleeSavedIndex bank candidate.physIndex
  else if isQ then !isCalleeSavedIndex bank candidate.physIndex
  else true

/-- The order of the active list. -/
def ActiveInterval.le (lhs rhs : ActiveInterval) : Prop :=
  lhs.interval.stop < rhs.interval.stop ∨
    lhs.interval.stop = rhs.interval.stop ∧ lhs.physIndex ≤ rhs.physIndex

instance : DecidableRel ActiveInterval.le := fun lhs rhs =>
  inferInstanceAs (Decidable (lhs.interval.stop < rhs.interval.stop ∨
    lhs.interval.stop = rhs.interval.stop ∧ lhs.physIndex ≤ rhs.physIndex))

structure ScanState where
  active : Bank → List ActiveInterval
  free : Bank → List Nat
  assignments : Nat → Option Allocation
  spillSlots : Nat
  savedRegsMask : Nat

def ScanState.initial : ScanState where
  active := fun _ => []
  free := fun bank => List.range (poolSize bank)
  assignments := fun _ => none
  spillSlots := 0
  savedRegsMask := 0

/-- Give `vreg` its spill slots. -/
def ScanState.spill (s : ScanState) (vreg : Nat) (cls : RegisterClass) : ScanState :=
  { s with
    assignments :=
      Function.update s.assignments vreg (some (.spill (takeSpillSlots s.spillSlots cls).1))
    spillSlots := (takeSpillSlots s.spillSlots cls).2 }

/-- Give `interval` the register `physIndex`, the bank's lists being
    `active` and `free` without it. -/
def ScanState.assign (s : ScanState) (bank : Bank) (interval : LiveInterval) (physIndex : Nat)
    (active : List ActiveInterval) (free : List Nat) : ScanState :=
  { s with
    active := Function.update s.active bank
      ((active ++ [ActiveInterval.mk interval physIndex]).insertionSort ActiveInterval.le)
    free := Function.update s.free bank free
    assignments := Function.update s.assignments interval.vreg (some (.phys physIndex))
    savedRegsMask :=
      if isCalleeSavedIndex bank physIndex then
        s.savedRegsMask ||| savedRegMaskBit bank physIndex
      else s.savedRegsMask }

/-- One iteration of `linear_scan`; `none` is one of its panics (a vreg with
    no class, or with one that no bank holds). -/
def scanInterval (classes : Nat → Option RegisterClass) (callCrossing : List Nat)
    (weights : Option SpillWeights) (s : ScanState) (interval : LiveInterval) :
    Option ScanState := do
  let cls ← classes interval.vreg
  let bank ← bankOf cls
  let crossing := callCrossing.contains interval.vreg
  let isQ := decide (cls = .simd128)
  if isQ && crossing then some (s.spill interval.vreg cls)
  else
    let (active, free) := expireOldIntervals interval.start (s.active bank) (s.free bank)
    let free := free.insertionSort (· ≤ ·)
    match freePosition bank crossing isQ free with
    | some position =>
      some (s.assign bank interval (free.getD position 0) active (free.eraseIdx position))
    | none =>
      match spillVictim weights interval active (isEligible bank crossing isQ) with
      | some (spilled, active) => do
        let victimClass ← classes spilled.interval.vreg
        some ((s.spill spilled.interval.vreg victimClass).assign bank interval
          spilled.physIndex active free)
      | none =>
        some ({ s with
          active := Function.update s.active bank active
          free := Function.update s.free bank free }.spill interval.vreg cls)

structure AllocationResult where
  assignments : Nat → Option Allocation
  spillSlots : Nat
  savedRegsMask : Nat

/-- The scan over all intervals. -/
def scanIntervals (classes : Nat → Option RegisterClass) (callCrossing : List Nat)
    (weights : Option SpillWeights) : ScanState → List LiveInterval → Option ScanState
  | s, [] => some s
  | s, interval :: intervals => do
    let s ← scanInterval classes callCrossing weights s interval
    scanIntervals classes callCrossing weights s intervals

def linearScan (intervals : List LiveInterval) (classes : Nat → Option RegisterClass)
    (callCrossing : List Nat) (weights : Option SpillWeights) : Option AllocationResult :=
  (scanIntervals classes callCrossing weights .initial intervals).map fun s =>
    ⟨s.assignments, s.spillSlots, s.savedRegsMask⟩

/-- The allocation of a function body: intervals, call-crossing values, scan. -/
def allocateBody (body : MachineBody) (weights : Option SpillWeights) :
    Option AllocationResult := do
  let live ← collectLiveIntervals body
  linearScan live.intervals live.classes (valuesLiveAcrossCalls live.insts live.intervals) weights

end Crabbit.Aarch64
