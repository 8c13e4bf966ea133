/-
  Crabbit.Nvptx.AddrPlan

  The plan a function is emitted by (`nvptx/mod.rs`): the visiting order of its
  blocks, the contracted multiplications (`plan_fp_contraction`), the folded
  addresses with the operations that emit nothing (`plan_addresses`), and the
  registers emission looks up.

  An operation is named by its position among the visited ones.
-/

import Crabbit.Lib.DepthFirst
import Crabbit.Nvptx.AddrFold

namespace Crabbit.Nvptx

open Crabbit.Lib
open Crabbit.Llvm (Value Ty GepIndex Successor)

/-! ## Functions -/

/-- What the emitter tells apart among the operations the address analyses do
    not look into. -/
inductive OtherKind where
  | ashr | or | xor | sext | fadd | fmul | unlisted
  deriving DecidableEq

/-- An operation; `kind` is read of an `other` one only. -/
structure EmitInst where
  inst : Inst
  kind : OtherKind := .unlisted
  deriving DecidableEq

structure EmitBlock where
  params : List Value
  insts : List EmitInst
  deriving DecidableEq

/-- A kernel or device function: its blocks as they lie, the entry first. -/
structure EmitFunc where
  blocks : List EmitBlock
  globals : String → Option GlobalSpace
  paramsGlobal : Bool

namespace EmitFunc

def block (f : EmitFunc) (b : Nat) : EmitBlock := f.blocks.getD b ⟨[], []⟩

/-- The function as the address analyses read it. -/
def kernel (f : EmitFunc) : Kernel where
  blocks := f.blocks.map fun b => ⟨b.params, b.insts.map EmitInst.inst⟩
  globals := f.globals
  paramsGlobal := f.paramsGlobal

/-- The successors of a block's terminator. -/
def succs (f : EmitFunc) (b : Nat) : List Nat :=
  match (f.block b).insts.getLast? with
  | some op => op.inst.succs.map Successor.dest
  | none => []

/-- `entry_reverse_post_order`, with fuel for its loop. -/
def entryReversePostOrder (f : EmitFunc) (fuel : Nat) : Option (List Nat) :=
  depthFirst f.succs fuel [(0, 0)] [0] []

/-- Enough steps for the search. -/
def searchSteps (f : EmitFunc) : Nat := stepsLeft f.succs (List.range f.blocks.length) []

/-- The operations of the blocks in an order. -/
def ops (f : EmitFunc) (order : List Nat) : List EmitInst :=
  order.flatMap fun b => (f.block b).insts

/-- `num_uses`, over the whole function. -/
def numUses (f : EmitFunc) (v : Value) : Nat :=
  (f.kernel.insts.map fun inst => inst.operands.count v).sum

end EmitFunc

/-! ## Contraction -/

/-- The operation that defines a value. -/
def definingPosition (ops : List EmitInst) (v : Value) : Option Nat :=
  ops.findIdx? fun op => v ∈ op.inst.results

/-- A multiplication fused into the addition that uses it: `fma.rn` of `a`, `b`
    and `addend` at the addition. -/
structure Contraction where
  add : Nat
  mul : Nat
  a : Value
  b : Value
  addend : Value
  deriving DecidableEq

/-- The operands of a binary operation of a kind. -/
def EmitInst.operandsOf (kind : OtherKind) (op : EmitInst) : Option (Value × Value) :=
  match op.inst with
  | .other [_] [lhs, rhs] => if op.kind = kind then some (lhs, rhs) else none
  | _ => none

/-- One operand of an addition fuses if its only use is there and it is a
    multiplication that has not fused. -/
def fuse (f : EmitFunc) (ops : List EmitInst) (plan : List Contraction) (add : Nat)
    (product addend : Value) : Option Contraction :=
  (definingPosition ops product).bind fun mul =>
    if f.numUses product = 1 ∧ mul ∉ plan.map Contraction.mul then
      (ops[mul]?.bind (EmitInst.operandsOf .fmul)).map fun factors =>
        { add, mul, a := factors.1, b := factors.2, addend }
    else none

/-- The operation at position `add`; the left operand goes first. -/
def contractAt (f : EmitFunc) (ops : List EmitInst) (plan : List Contraction) (add : Nat)
    (op : EmitInst) : List Contraction :=
  match op.operandsOf .fadd with
  | some (lhs, rhs) =>
    plan ++ ((fuse f ops plan add lhs rhs).or (fuse f ops plan add rhs lhs)).toList
  | none => plan

/-- The operations from a position on. -/
def contractFrom (f : EmitFunc) (ops : List EmitInst) :
    Nat → List EmitInst → List Contraction → List Contraction
  | _, [], plan => plan
  | i, op :: rest, plan => contractFrom f ops (i + 1) rest (contractAt f ops plan i op)

/-- `plan_fp_contraction`: the fused multiplications, and for each contracted
    addition the operands of its `fma.rn`. -/
def planFpContraction (f : EmitFunc) (ops : List EmitInst) : List Contraction :=
  contractFrom f ops 0 ops []

/-! ## Operations that emit nothing -/

/-- The values the base register of a plan is computed from. -/
def FoldedAddr.reads (plan : FoldedAddr) : List Value := plan.root :: plan.terms.map Term.value

/-- Pass 1: the plans of the visited operations. -/
def foldPlans (k : Kernel) (spaces : Value → Option PtrSpace) (ops : List EmitInst) :
    Value → Option FoldedAddr :=
  (ops.foldl (fun p op => planInst k spaces p op.inst) ⟨fun _ => none, fun _ => none⟩).plans

/-- The values some plan reads, although no operand names them there. -/
def pinned (plans : Value → Option FoldedAddr) (ops : List EmitInst) : List Value :=
  ops.flatMap fun op => op.inst.results.flatMap fun r => (plans r).elim [] FoldedAddr.reads

/-- The operand of an operation that never needs its register: the address of an
    access through a folded value, and the base of a GEP that folded.  A stored
    value always needs one. -/
def exempt (plans : Value → Option FoldedAddr) : Inst → Option Value
  | .load _ addr => if (plans addr).isSome then some addr else none
  | .store value addr => if (plans addr).isSome ∧ addr ≠ value then some addr else none
  | .gep result base _ _ => if (plans result).isSome then some base else none
  | _ => none

/-- The operations that use a value, the exempt uses left out. -/
def usersOf (plans : Value → Option FoldedAddr) (ops : List EmitInst) (v : Value) : List Nat :=
  (List.range ops.length).filter fun i =>
    match ops[i]? with
    | some op => decide (v ∈ op.inst.operands ∧ exempt plans op.inst ≠ some v)
    | none => false

def isGep : Inst → Bool
  | .gep .. => true
  | _ => false

/-- Pure single-result integer operations, the only cost of which is the emitted
    instruction. -/
def EmitInst.isPureInt (op : EmitInst) : Bool :=
  match op.inst with
  | .bin .. | .zext .. | .trunc .. => true
  | .other [_] _ => op.kind ∈ [OtherKind.ashr, .or, .xor, .sext]
  | _ => false

/-- Whether pass 2 may skip an operation with the given result, its users
    apart. -/
def skippable (plans : Value → Option FoldedAddr) (pins : List Value) (op : EmitInst)
    (result : Value) : Bool :=
  (isGep op.inst && (plans result).isSome) || (op.isPureInt && decide (result ∉ pins))

/-- One operation of pass 2, after the operations behind it. -/
def skipAt (plans : Value → Option FoldedAddr) (ops : List EmitInst) (i : Nat)
    (skip : List Nat) : List Nat :=
  match ops[i]?.bind fun op => op.inst.results.head?.map fun result => (op, result) with
  | some (op, result) =>
    if skippable plans (pinned plans ops) op result ∧ ∀ user ∈ usersOf plans ops result, user ∈ skip
    then i :: skip
    else skip
  | none => skip

/-- Pass 2, in reverse program order. -/
def skipOps (plans : Value → Option FoldedAddr) (ops : List EmitInst) : List Nat :=
  (List.range ops.length).foldr (skipAt plans ops) []

/-- What a function is emitted by. -/
structure EmitPlan where
  plans : Value → Option FoldedAddr
  skip : List Nat
  contractions : List Contraction

/-- `plan_addresses` beside `plan_fp_contraction`; `addrFold` is the switch
    `CRABBIT_NVPTX_ADDRFOLD`. -/
def emitPlan (f : EmitFunc) (spaces : Value → Option PtrSpace) (addrFold : Bool)
    (ops : List EmitInst) : EmitPlan :=
  let plans := if addrFold then foldPlans f.kernel spaces ops else fun _ => none
  { plans
    skip := if addrFold then skipOps plans ops else []
    contractions := planFpContraction f ops }

/-! ## Emission -/

namespace EmitPlan

/-- The operation at a position emits something. -/
def Emits (plan : EmitPlan) (i : Nat) : Prop :=
  i ∉ plan.skip ∧ i ∉ plan.contractions.map Contraction.mul

instance (plan : EmitPlan) (i : Nat) : Decidable (plan.Emits i) :=
  inferInstanceAs (Decidable (_ ∧ _))

/-- `mem_operand`: the registers the address of an access is computed from. -/
def memOperand (plan : EmitPlan) (addr : Value) : List Value :=
  (plan.plans addr).elim [addr] FoldedAddr.reads

/-- The parameters a branch copies its arguments to. -/
def branchParams (f : EmitFunc) (inst : Inst) : List Value :=
  inst.succs.flatMap fun s => (f.block s.dest).params

/-- The values the emitter may look up for the operation at a position.  Operands
    that turn out to be immediates and bases that are cached are among them.  A
    load that is a member of a vector or byte group looks up at most the base of
    its own plan, which is the group's. -/
def lookups (f : EmitFunc) (plan : EmitPlan) (i : Nat) (inst : Inst) : List Value :=
  match inst with
  | .constant .. | .addressOf .. | .alloca .. => []
  | .gep result _ _ _ => (plan.plans result).elim inst.operands FoldedAddr.reads
  | .load _ addr => plan.memOperand addr
  | .store value addr => value :: plan.memOperand addr
  | .other .. =>
    match plan.contractions.find? (·.add = i) with
    | some fma => [fma.a, fma.b, fma.addend]
    | none => inst.operands
  | _ => inst.operands ++ branchParams f inst

/-- `emit_op`, as far as registers are concerned: `defined` are the values that
    have one.  The error is the undefined value. -/
def emitOp (f : EmitFunc) (plan : EmitPlan) (i : Nat) (op : EmitInst) (defined : List Value) :
    Except Value (List Value) :=
  if plan.Emits i then
    match (plan.lookups f i op.inst).find? (· ∉ defined) with
    | some v => .error v
    | none => .ok (defined ++ op.inst.results)
  else .ok defined

/-- The operations from a position on. -/
def emitFrom (f : EmitFunc) (plan : EmitPlan) : Nat → List EmitInst → List Value →
    Except Value (List Value)
  | _, [], defined => .ok defined
  | i, op :: rest, defined =>
    (plan.emitOp f i op defined).bind fun defined => emitFrom f plan (i + 1) rest defined

/-- The parameters of the blocks have their registers before any block is
    emitted. -/
def emit (f : EmitFunc) (plan : EmitPlan) (order : List Nat) : Except Value (List Value) :=
  plan.emitFrom f 0 (f.ops order) (order.flatMap fun b => (f.block b).params)

end EmitPlan

/-! ## Well-typed addresses -/

/-- What the verifier promises of the operations addresses are computed with. -/
def Inst.AddrTyped : Inst → Prop
  | .gep result _ _ indices => result.ty = .pointer ∧
      ∀ v ∈ indices.flatMap GepIndex.operands, v.ty.intWidth.isSome = true
  | .bin _ _ lhs rhs => lhs.ty.intWidth.isSome = true ∧ rhs.ty.intWidth.isSome = true
  | .zext _ operand => operand.ty.intWidth.isSome = true
  | _ => True

instance (inst : Inst) : Decidable inst.AddrTyped := by
  apply Inst.casesOn (motive := fun inst => Decidable inst.AddrTyped) inst
  case gep => exact fun _ _ _ _ => @instDecidableAnd _ _ _ (List.decidableBAll _ _)
  all_goals intros; unfold Inst.AddrTyped; infer_instance

def EmitFunc.Typed (f : EmitFunc) : Prop := ∀ inst ∈ f.kernel.insts, inst.AddrTyped

instance (f : EmitFunc) : Decidable f.Typed :=
  inferInstanceAs (Decidable (∀ inst ∈ f.kernel.insts, _))

end Crabbit.Nvptx
