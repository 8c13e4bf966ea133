/-
  Crabbit.Nvptx.Readonly

  The write-set analysis of the NVPTX back end (`nvptx/spaces.rs`):
  `readonly_values`, the values through which a function is held to read only
  memory that nothing in it writes.

  Provenance is per root: the kernel pointer parameters, the results of
  `llvm.addressof`, the allocas, and the requests of the dynamic shared
  window, each a bit of a mask.
-/

import Crabbit.Lib.Sweeps
import Crabbit.Nvptx.Ir
import Mathlib.Logic.Function.Basic

namespace Crabbit.Nvptx

open Crabbit.Lib (sweeps)
open Crabbit.Llvm (Value Successor)

/-- The roots a value may be derived from, or `unknown` when the derivation
    escapes the tracked operations. -/
inductive Prov where
  | roots (mask : Nat)
  | unknown
  deriving DecidableEq

def Prov.join : Prov → Prov → Prov
  | .roots a, .roots b => .roots (a ||| b)
  | _, _ => .unknown

/-- The map being computed, and the ids of the roots so far. -/
structure ProvMap where
  prov : Value → Option Prov
  rootIds : Value → Option Prov
  nextRoot : Nat

namespace ProvMap

def insert (m : ProvMap) (v : Value) (p : Prov) : ProvMap :=
  { m with prov := Function.update m.prov v (some p) }

@[simp] theorem insert_self (m : ProvMap) (v : Value) (p : Prov) :
    (m.insert v p).prov v = some p :=
  Function.update_self ..

theorem insert_of_ne (m : ProvMap) {v w : Value} (h : w ≠ v) (p : Prov) :
    (m.insert v p).prov w = m.prov w :=
  Function.update_of_ne h ..

/-- A new root; beyond 64 of them new sources degrade to `unknown`. -/
def newRoot (m : ProvMap) (v : Value) : ProvMap :=
  if m.nextRoot ≥ 64 then { m with rootIds := Function.update m.rootIds v (some .unknown) }
  else
    { m with
      rootIds := Function.update m.rootIds v (some (.roots (2 ^ m.nextRoot)))
      nextRoot := m.nextRoot + 1 }

/-- The map in which a value has a root id, assigned once. -/
def rootOf (m : ProvMap) (v : Value) : ProvMap :=
  match m.rootIds v with
  | some _ => m
  | none => m.newRoot v

/-- Join provenance into the entry of a value. -/
def raiseProv (m : ProvMap) (v : Value) (p : Prov) : ProvMap × Bool :=
  match m.prov v with
  | none => (m.insert v p, true)
  | some old => if old.join p = old then (m, false) else (m.insert v (old.join p), true)

/-- `raise_prov`, where there is something to join. -/
def raiseProv? (m : ProvMap) (v : Value) : Option Prov → ProvMap × Bool
  | some p => m.raiseProv v p
  | none => (m, false)

end ProvMap

/-! ## One operation -/

/-- The join of the arms of a select, those that have an entry. -/
def joinProvs : Option Prov → Option Prov → Option Prov
  | some a, some b => some (a.join b)
  | some one, none | none, some one => some one
  | none, none => none

inductive ProvUpdate where
  /-- A fresh provenance source. -/
  | root (result : Value)
  /-- An untracked producer: the result may be derived from anything. -/
  | untracked (result : Value)
  | aliasResult (operand result : Value)
  | joinSelect (onTrue onFalse result : Value)
  | joinParam (arg param : Value)
  deriving DecidableEq

def ProvUpdate.apply (m : ProvMap) : ProvUpdate → ProvMap × Bool
  | .root result => (m.rootOf result).raiseProv? result ((m.rootOf result).rootIds result)
  | .untracked result => m.raiseProv result .unknown
  | .aliasResult operand result => m.raiseProv? result (m.prov operand)
  | .joinSelect onTrue onFalse result =>
      m.raiseProv? result (joinProvs (m.prov onTrue) (m.prov onFalse))
  | .joinParam arg param => m.raiseProv? param (m.prov arg)

/-- Join one branch edge's operand provenance into the target's parameters. -/
def provBranchEdge (k : Kernel) (target : Successor) : List ProvUpdate :=
  (target.args.zip (k.block target.dest).params).map fun p => .joinParam p.1 p.2

def provTransfer (k : Kernel) : Inst → List ProvUpdate
  | .addressOf result _ | .alloca result _ => [.root result]
  | .gep result base _ _ => [.aliasResult base result]
  | .cast _ result operand => [.aliasResult operand result]
  | .select result _ onTrue onFalse => [.joinSelect onTrue onFalse result]
  -- Writes are collected after the fixpoint.
  | .store .. => []
  | .br target => provBranchEdge k target
  | .condBr _ onTrue onFalse => provBranchEdge k onTrue ++ provBranchEdge k onFalse
  | .call results callee _ =>
      results.map (if canonicalName callee = DYN_SHARED_INTRINSIC then .root else .untracked)
  -- Untracked producers, loads included.
  | inst => inst.results.map .untracked

/-! ## The fixpoint -/

/-- The entry of one parameter. -/
def paramProv (k : Kernel) (m : ProvMap) (param : Value) : ProvMap :=
  if isPointer param.ty = true ∧ k.paramsGlobal = true then
    (m.rootOf param).insert param (((m.rootOf param).rootIds param).getD .unknown)
  else m.insert param .unknown

def initialProv (k : Kernel) : ProvMap :=
  k.entry.params.foldl (paramProv k) ⟨fun _ => none, fun _ => none, 0⟩

/-- The updates of one sweep over the body. -/
def provUpdates (k : Kernel) : List ProvUpdate := k.insts.flatMap (provTransfer k)

/-- The provenance of every value; `none` when the fuel runs out. -/
def inferProv (k : Kernel) (fuel : Nat) : Option ProvMap :=
  sweeps ((provUpdates k).map fun u m => u.apply m) fuel (initialProv k)

/-! ## The write set -/

/-- The roots a write through an address dirties; `none` is all of them. -/
def maskOf : Option Prov → Option Nat
  | some (.roots mask) => some mask
  | _ => none

/-- The roots an operation dirties; `none` is all of them. -/
def writeMask (prov : Value → Option Prov) : Inst → Option Nat
  | .store _ address => maskOf (prov address)
  -- An atomic writes through its pointer operand.
  | .atomicRmw _ address _ | .atomicCmpxchg _ address _ => maskOf (prov address)
  -- Opaque text: may write through anything it can reach.
  | .inlineAsm .. => none
  | .call _ callee operands =>
      match callMemEffect (canonicalName callee) with
      | .none => some 0
      | .atomicPtrArg => maskOf (operands.head?.bind prov)
      | .unknown => none
  | _ => some 0

/-- `dirty` and `dirty_all`. -/
def dirtyRoots (k : Kernel) (prov : Value → Option Prov) : Nat × Bool :=
  k.insts.foldl (fun acc inst =>
    match writeMask prov inst with
    | some mask => (acc.1 ||| mask, acc.2)
    | none => (acc.1, true)) (0, false)

/-- Whether a value's own derivation is known and none of its roots is dirty. -/
def isReadonly (k : Kernel) (prov : Value → Option Prov) (v : Value) : Bool :=
  !(dirtyRoots k prov).2 &&
    match prov v with
    | some (.roots mask) => mask &&& (dirtyRoots k prov).1 = 0
    | _ => false

/-- The values through which the function provably reads only memory that
    nothing in it writes; `none` when the fuel runs out. -/
def readonlyValues (k : Kernel) (fuel : Nat) : Option (Value → Bool) :=
  (inferProv k fuel).map fun m => isReadonly k m.prov

end Crabbit.Nvptx
