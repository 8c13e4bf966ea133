/-
  Crabbit.Nvptx.Spaces

  Pointer state-space provenance for kernel bodies (`nvptx/spaces.rs`):
  `infer_spaces`, the fixpoint of forward propagation from the sources plus
  demotion of escaping `Shared` values.

  An operation's transfer is a list of updates, one for each `changed |= ..`
  of the source, made in that order.
-/

import Crabbit.Lib.Sweeps
import Crabbit.Nvptx.Ir
import Mathlib.Logic.Function.Basic

namespace Crabbit.Nvptx

open Crabbit.Lib (sweeps)
open Crabbit.Llvm (Value Successor GepIndex)

/-- The state space a pointer value is proven to address. -/
inductive PtrSpace where
  /-- A `.global` address, the same number as its generic form. -/
  | global
  /-- A raw `.shared` window address. -/
  | shared
  /-- Unknown or mixed provenance: a generic address. -/
  | generic
  deriving DecidableEq

/-- The map being computed, and the values that escaped: they stay demoted. -/
structure SpaceMap where
  spaces : Value → Option PtrSpace
  forced : Value → Bool

namespace SpaceMap

def insert (m : SpaceMap) (v : Value) (space : PtrSpace) : SpaceMap :=
  ⟨Function.update m.spaces v (some space), m.forced⟩

@[simp] theorem insert_self (m : SpaceMap) (v : Value) (space : PtrSpace) :
    (m.insert v space).spaces v = some space :=
  Function.update_self ..

theorem insert_of_ne (m : SpaceMap) {v w : Value} (h : w ≠ v) (space : PtrSpace) :
    (m.insert v space).spaces w = m.spaces w :=
  Function.update_of_ne h ..

/-- Join `space` into the entry of a value; equal spaces are absorbed, others
    meet at `generic`. -/
def raise (m : SpaceMap) (v : Value) (space : PtrSpace) : SpaceMap × Bool :=
  match m.spaces v with
  | none => (m.insert v space, true)
  | some old =>
      if old = space ∨ old = .generic then (m, false) else (m.insert v .generic, true)

/-- `raise`, except that escaped results are pinned at `generic`. -/
def setResult (m : SpaceMap) (result : Value) (space : PtrSpace) : SpaceMap × Bool :=
  m.raise result (if m.forced result then .generic else space)

/-- A use that cannot handle the raw shared representation demotes a `shared`
    value. -/
def escape (m : SpaceMap) (v : Value) : SpaceMap × Bool :=
  if m.spaces v = some .shared ∧ m.forced v = false then
    (⟨(m.insert v .generic).spaces, Function.update m.forced v true⟩, true)
  else (m, false)

/-- `set_result`, where there is something to set. -/
def setResult? (m : SpaceMap) (result : Value) : Option PtrSpace → SpaceMap × Bool
  | some space => m.setResult result space
  | none => (m, false)

/-- `raise`, where there is something to join. -/
def raise? (m : SpaceMap) (v : Value) : Option PtrSpace → SpaceMap × Bool
  | some space => m.raise v space
  | none => (m, false)

end SpaceMap

/-! ## One operation -/

/-- The join of the arms of a select, those that have an entry. -/
def joinArms : Option PtrSpace → Option PtrSpace → Option PtrSpace
  | some a, some b => if a = b then some a else some .generic
  | some one, none | none, some one => some one
  | none, none => none

inductive SpaceUpdate where
  | setResult (result : Value) (space : PtrSpace)
  | escape (v : Value)
  /-- A register-aliasing cast: the result shares the operand's provenance. -/
  | aliasResult (operand result : Value)
  | joinSelect (onTrue onFalse result : Value)
  /-- An argument of a branch is joined into the parameter it is for. -/
  | joinParam (arg param : Value)
  deriving DecidableEq

def SpaceUpdate.apply (m : SpaceMap) : SpaceUpdate → SpaceMap × Bool
  | .setResult result space => m.setResult result space
  | .escape v => m.escape v
  | .aliasResult operand result => m.setResult? result (m.spaces operand)
  | .joinSelect onTrue onFalse result =>
      m.setResult? result (joinArms (m.spaces onTrue) (m.spaces onFalse))
  | .joinParam arg param => m.raise? param (m.spaces arg)

/-- Join one branch edge's operand spaces into the target's parameters. -/
def branchEdge (k : Kernel) (target : Successor) : List SpaceUpdate :=
  (target.args.zip (k.block target.dest).params).map fun p => .joinParam p.1 p.2

/-- The space of `llvm.addressof` of a module global. -/
def spaceOfGlobal (k : Kernel) (name : String) : PtrSpace :=
  match k.globals name with
  | some .global => .global
  | some .shared => .shared
  | none => .generic

/-- Whether the first operand of a call is the pointer of an atomic. -/
def isAtomicCall (callee : Option String) : Bool :=
  decide (canonicalName callee ∈ ATOMIC_INTRINSICS)

/-- The operands of a call that escape: all but the pointer of an atomic. -/
def escapingArgs (callee : Option String) (operands : List Value) : List Value :=
  if isAtomicCall callee then operands.drop 1 else operands

/-- The dynamic shared-memory window base is a `.shared` source. -/
def callSpace (callee : Option String) : PtrSpace :=
  if canonicalName callee = DYN_SHARED_INTRINSIC then .shared else .generic

/-- One operation's provenance transfer: result spaces, escapes of unsafe
    operand uses, and joins into the parameters of branch targets. -/
def transfer (k : Kernel) : Inst → List SpaceUpdate
  | .addressOf result name => [.setResult result (spaceOfGlobal k name)]
  | .gep result base _ indices =>
      .aliasResult base result :: (indices.flatMap GepIndex.operands).map .escape
  | .cast _ result operand => [.aliasResult operand result]
  | .atomicRmw results _ values | .atomicCmpxchg results _ values =>
      values.map .escape ++ results.map fun r => .setResult r .generic
  | .select result _ onTrue onFalse => [.joinSelect onTrue onFalse result]
  | .load result _ => [.setResult result .generic]
  -- The address use is safe; the stored value leaves the function's view.
  | .store value _ => [.escape value]
  | .br target => branchEdge k target
  | .condBr _ onTrue onFalse => branchEdge k onTrue ++ branchEdge k onFalse
  | .call results callee operands =>
      (escapingArgs callee operands).map .escape ++
        results.map fun r => .setResult r (callSpace callee)
  -- Anything else neither produces nor preserves provenance.
  | inst => inst.operands.map .escape ++ inst.results.map fun r => .setResult r .generic

/-! ## The fixpoint -/

/-- Kernel pointer parameters are global-space addresses; every other
    parameter is generic. -/
def initialSpaces (k : Kernel) : SpaceMap where
  spaces v :=
    if v ∈ k.entry.params then
      some (if k.paramsGlobal = true ∧ isPointer v.ty = true then .global else .generic)
    else none
  forced _ := false

/-- The updates of one sweep over the body. -/
def spaceUpdates (k : Kernel) : List SpaceUpdate := k.insts.flatMap (transfer k)

/-- Provenance for every value of a kernel body; `none` when the fuel runs
    out. -/
def inferSpaces (k : Kernel) (fuel : Nat) : Option (Value → Option PtrSpace) :=
  (sweeps ((spaceUpdates k).map fun u m => u.apply m) fuel (initialSpaces k)).map SpaceMap.spaces

end Crabbit.Nvptx
