/-
  Crabbit.X86.BlockPlacement

  Hot-path-driven placement of the blocks of a machine function
  (`x86_64_block_placement.rs`): fall-throughs are made explicit, the blocks are
  chained by the frequencies of the hot path analysis, and the branches are
  rewritten against the new layout.

  Blocks are named by `id`; an operation of a block is named by its position.
-/

import Crabbit.Lib.X64
import Crabbit.X86.Encode

namespace Crabbit.X86

open Crabbit.Lib.X64 (Flags condHolds)

/-! ## Machine blocks -/

/-- An instruction with the weights attached to it, if any. -/
structure WeightedInst extends MachineInst where
  weights : Option (List UInt32) := none

/-- `branch_weights`: a `[taken, not-taken]` pair. -/
def WeightedInst.branchWeights (inst : WeightedInst) : Option (UInt32 × UInt32) :=
  match inst.weights with
  | some [taken, notTaken] => some (taken, notTaken)
  | _ => none

def jmp (target : Nat) : WeightedInst := { opcode := .jmp, target := some target }

structure MachineBlock where
  id : Nat
  insts : List WeightedInst

/-- The blocks of a function in layout order, the entry first. -/
structure LayoutFunc where
  blocks : List MachineBlock
  nodup : (blocks.map MachineBlock.id).Nodup

/-- The condition that holds exactly when this one does not. -/
def ConditionCode.invert : ConditionCode → ConditionCode
  | .o => .no | .no => .o | .b => .ae | .ae => .b | .e => .ne | .ne => .e | .be => .a | .a => .be
  | .s => .ns | .ns => .s | .p => .np | .np => .p | .l => .ge | .ge => .l | .le => .g | .g => .le

/-! ## Control transfers -/

/-- `ControlFlowOp`: the kinds of control transfer in machine blocks. -/
inductive ControlFlowOp where
  | conditional (op target : Nat) (weights : Option (UInt32 × UInt32))
  | unconditional (op target : Nat)
  | exit
  deriving DecidableEq

/-- `classify_control_flow`, of the instruction at position `op`. -/
def classifyControlFlow (op : Nat) (inst : WeightedInst) : Option ControlFlowOp :=
  if inst.opcode = .ret ∨ inst.opcode = .ud2 then some .exit
  else inst.target.bind fun target =>
    if inst.opcode = .jmp then some (.unconditional op target)
    else if inst.opcode = .jcc ∨ inst.opcode = .testJnz then
      some (.conditional op target inst.branchWeights)
    else none

/-- The control transfers from position `op` on. -/
def controlFlowFrom : Nat → List WeightedInst → List ControlFlowOp × Option ControlFlowOp
  | _, [] => ([], none)
  | op, inst :: rest =>
    match classifyControlFlow op inst with
    | some (.conditional condOp target weights) =>
      (.conditional condOp target weights :: (controlFlowFrom (op + 1) rest).1,
        (controlFlowFrom (op + 1) rest).2)
    | some ending => ([], some ending)
    | none => controlFlowFrom (op + 1) rest

/-- `block_control_flow`: the conditional branches in order, and how the block
    ends; a block that does not end falls through. -/
def blockControlFlow (block : MachineBlock) : List ControlFlowOp × Option ControlFlowOp :=
  controlFlowFrom 0 block.insts

/-! ## Explicit fall-throughs -/

/-- A block laid out before `next`, its fall-through made explicit. -/
def materializeFallthrough (next : Nat) (block : MachineBlock) : MachineBlock :=
  if (blockControlFlow block).2 = none then { block with insts := block.insts ++ [jmp next] }
  else block

/-- `materialize_fallthrough_branches`. -/
def materializeFallthroughBranches : List MachineBlock → List MachineBlock
  | block :: next :: rest =>
    materializeFallthrough next.id block :: materializeFallthroughBranches (next :: rest)
  | blocks => blocks

/-! ## Edges and frequencies -/

structure CfgEdge where
  dest : Nat
  weight : Option UInt32

/-- `machine_cfg_edges`, of one block: the edges of its conditionals, of which a
    single one keeps its weight, and then the edge of its final jump. -/
def blockEdges (blockIndex : Nat → Option Nat) (block : MachineBlock) : List CfgEdge :=
  let (conditionals, ending) := blockControlFlow block
  let weightsOf := fun (weights : Option (UInt32 × UInt32)) =>
    weights.filter fun _ => conditionals.length == 1
  let notTaken := conditionals.foldl (fun (last : Option UInt32) conditional =>
    match conditional with
    | .conditional _ _ weights => (weightsOf weights).map Prod.snd
    | _ => last) none
  let taken := conditionals.filterMap fun conditional =>
    match conditional with
    | .conditional _ target weights =>
      (blockIndex target).map fun dest => CfgEdge.mk dest ((weightsOf weights).map Prod.fst)
    | _ => none
  let final := match ending with
    | some (.unconditional _ target) => (blockIndex target).map fun dest => CfgEdge.mk dest notTaken
    | _ => none
  taken ++ final.toList

/-- `machine_cfg_edges`, the blocks by their positions. -/
def machineCfgEdges (blocks : List MachineBlock) : List (List CfgEdge) :=
  blocks.map (blockEdges fun target => blocks.findIdx? fun block => block.id == target)

/-- What placement reads of the hot path analysis, the blocks by their positions. -/
structure HotPathInfo where
  blockFrequency : Nat → Nat
  edgeFrequency : Nat → Nat → Nat

/-! ## Chains -/

/-- The order of the keys `(frequency, usize::MAX - index)`. -/
def keyLt (a b : Nat × Nat) : Bool := a.1 < b.1 || (a.1 == b.1 && a.2 < b.2)

/-- `max_by_key`, which returns the last of equal maxima. -/
def maxByKey (key : Nat → Nat × Nat) : List Nat → Option Nat
  | [] => none
  | b :: rest =>
    some (rest.foldl (fun best c => if keyLt (key c) (key best) then best else c) b)

structure ChainState where
  placed : List Bool
  order : List Nat
  current : Nat

def ChainState.unplaced (st : ChainState) (b : Nat) : Bool := !st.placed.getD b true

/-- The hottest successor of the chain's last block that is not placed, or else
    the hottest block that is not placed. -/
def nextBlock (count : Nat) (successors : List (List CfgEdge)) (info : HotPathInfo)
    (st : ChainState) : Option Nat :=
  let targets := ((successors.getD st.current []).map CfgEdge.dest).filter st.unplaced
  match maxByKey (fun b => (info.edgeFrequency st.current b, 2 ^ 64 - 1 - b)) targets with
  | some b => some b
  | none =>
    maxByKey (fun b => (info.blockFrequency b, 2 ^ 64 - 1 - b))
      ((List.range count).filter st.unplaced)

def ChainState.place (st : ChainState) (b : Nat) : ChainState :=
  { placed := st.placed.set b true, order := st.order ++ [b], current := b }

/-- The loop of `chain_order` with the given number of blocks left to place. -/
def chainLoop (count : Nat) (successors : List (List CfgEdge)) (info : HotPathInfo) :
    Nat → ChainState → Option (List Nat)
  | 0, st => some st.order
  | left + 1, st =>
    match nextBlock count successors info st with
    | some next => chainLoop count successors info left (st.place next)
    | none => none

/-- `chain_order`; `none` is its `expect`. -/
def chainOrder (count : Nat) (successors : List (List CfgEdge)) (info : HotPathInfo) :
    Option (List Nat) :=
  chainLoop count successors info (count - 1)
    { placed := (List.replicate count false).set 0 true, order := [0], current := 0 }

/-! ## The new layout -/

/-- `unlink` and `insert_at_back`. -/
def moveToBack (layout : List MachineBlock) (block : MachineBlock) : List MachineBlock :=
  layout.filter (fun other => other.id != block.id) ++ [block]

/-- Every block of the order but the first re-appended. -/
def applyOrder (blocks : List MachineBlock) (order : List Nat) : List MachineBlock :=
  ((order.drop 1).filterMap fun index => blocks[index]?).foldl moveToBack blocks

/-- A conditional jump turned around: `set_cond`, `set_target` and, where it has
    weights, `set_branch_weights`. -/
def WeightedInst.inverted (inst : WeightedInst) (cond : ConditionCode) (target : Nat)
    (weights : Option (UInt32 × UInt32)) : WeightedInst :=
  { inst with
    cond := some cond.invert
    target := some target
    weights := match weights with
      | some (taken, notTaken) => some [notTaken, taken]
      | none => inst.weights }

/-- The only conditional of a block goes to the next block and the jump behind
    it elsewhere: the condition is inverted and the jump erased.  `test_jnz` has
    no inverse and stays. -/
def invertConditional (insts : List WeightedInst) (condOp branchOp branchTarget : Nat)
    (weights : Option (UInt32 × UInt32)) : List WeightedInst :=
  match insts[condOp]? with
  | some inst =>
    if inst.opcode = .jcc then
      match inst.cond with
      | some cond => (insts.set condOp (inst.inverted cond branchTarget weights)).eraseIdx branchOp
      | none => insts
    else insts
  | none => insts

/-- The instructions of a block laid out before `next`, rewritten. -/
def simplifiedInsts (next : Nat) (block : MachineBlock) : List WeightedInst :=
  match blockControlFlow block with
  | (conditionals, some (.unconditional branchOp branchTarget)) =>
    -- The unconditional branch just falls through now.
    if branchTarget = next then block.insts.eraseIdx branchOp
    else
      match conditionals with
      | [.conditional condOp condTarget weights] =>
        if condTarget = next then
          invertConditional block.insts condOp branchOp branchTarget weights
        else block.insts
      | _ => block.insts
  | _ => block.insts

/-- `simplify_branches_for_layout`. -/
def simplifyBranchesForLayout : List MachineBlock → List MachineBlock
  | block :: next :: rest =>
    { block with insts := simplifiedInsts next.id block } ::
      simplifyBranchesForLayout (next :: rest)
  | blocks => blocks

/-- `place_blocks`, under a hot path analysis. -/
def placeBlocks (fromEdges : List (List CfgEdge) → HotPathInfo) (blocks : List MachineBlock) :
    Option (List MachineBlock) :=
  if blocks.length < 2 then some blocks
  else
    let explicit := materializeFallthroughBranches blocks
    let successors := machineCfgEdges explicit
    (chainOrder explicit.length successors (fromEdges successors)).map fun order =>
      simplifyBranchesForLayout (applyOrder explicit order)

/-! ## What a block does -/

/-- A machine as far as its blocks see it: what an instruction that does not
    transfer control does (also the `test` of a `test_jnz`), the flags and the
    registers. -/
structure Machine (S : Type) where
  exec : MachineInst → S → S
  flags : S → Flags
  reg : S → Register → BitVec 64

/-- Where a block leaves to. -/
inductive Leave where
  | block (id : Nat)
  | ret
  | trap
  deriving DecidableEq

/-- The instructions run from a state: the state they leave in, and where to.
    Behind the last one control falls into the block laid out next. -/
def run {S : Type} (m : Machine S) (next : Option Nat) :
    List WeightedInst → S → Option (S × Leave)
  | [], s => next.map fun id => (s, .block id)
  | inst :: rest, s =>
    match inst.opcode with
    | .ret => some (s, .ret)
    | .ud2 => some (s, .trap)
    | .jmp => inst.target.map fun target => (s, .block target)
    | .jcc =>
      inst.target.bind fun target => inst.cond.bind fun cond =>
        if condHolds cond.encoding (m.flags s) then some (s, .block target)
        else run m next rest s
    | .testJnz =>
      inst.target.bind fun target => inst.rn.bind fun rn =>
        if m.reg s rn ≠ 0 then some (m.exec inst.toMachineInst s, .block target)
        else run m next rest (m.exec inst.toMachineInst s)
    | _ => run m next rest (m.exec inst.toMachineInst s)

/-- The block laid out behind a block. -/
def blockBehind : List MachineBlock → Nat → Option Nat
  | block :: next :: rest, id =>
    if block.id = id then some next.id else blockBehind (next :: rest) id
  | _, _ => none

/-- How execution continues from a block; `none` where it runs off the end of
    the function. -/
def continues {S : Type} (m : Machine S) (blocks : List MachineBlock) (id : Nat) (s : S) :
    Option (S × Leave) :=
  (blocks.find? fun block => block.id == id).bind fun block =>
    run m (blockBehind blocks id) block.insts s

/-! ## The blocks instruction selection emits -/

/-- Straight-line code. -/
def WeightedInst.Straight (inst : WeightedInst) : Prop :=
  inst.opcode ∉ [X86_64Opcode.jmp, .jcc, .testJnz, .ret, .ud2]

/-- A conditional jump with its target and what it tests. -/
def WeightedInst.Conditional (inst : WeightedInst) : Prop :=
  inst.target.isSome ∧
    (inst.opcode = .jcc ∧ inst.cond.isSome ∨ inst.opcode = .testJnz ∧ inst.rn.isSome)

/-- A final `jmp`, `ret` or `ud2`. -/
def WeightedInst.Final (inst : WeightedInst) : Prop :=
  inst.opcode = .jmp ∧ inst.target.isSome ∨ inst.opcode = .ret ∨ inst.opcode = .ud2

instance (inst : WeightedInst) : Decidable inst.Straight :=
  inferInstanceAs (Decidable (_ ∉ _))

instance (inst : WeightedInst) : Decidable inst.Conditional :=
  inferInstanceAs (Decidable (_ ∧ _))

instance (inst : WeightedInst) : Decidable inst.Final :=
  inferInstanceAs (Decidable (_ ∨ _))

/-- Straight-line code, then at most one conditional jump, then at most one final
    jump, return or trap. -/
structure Emitted (insts : List WeightedInst) where
  straight : List WeightedInst
  conditional : Option WeightedInst
  final : Option WeightedInst
  eq : insts = straight ++ conditional.toList ++ final.toList
  hstraight : ∀ inst ∈ straight, inst.Straight
  hconditional : ∀ inst ∈ conditional, inst.Conditional
  hfinal : ∀ inst ∈ final, inst.Final

/-- A block of one of the forms instruction selection emits. -/
def MachineBlock.Formed (block : MachineBlock) : Prop := Nonempty (Emitted block.insts)

end Crabbit.X86
