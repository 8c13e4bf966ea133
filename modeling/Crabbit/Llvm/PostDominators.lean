/-
  Crabbit.Llvm.PostDominators

  Post-dominators of the blocks of a region (`passes/llvm/analysis.rs`): the
  immediate dominators of the reversed graph, which a virtual exit enters, and
  the queries on them.
-/

import Crabbit.Lib.IdomTree
import Crabbit.Llvm.RegionCfg

namespace Crabbit.Llvm

open Crabbit.Lib

/-! ## Immediate dominators of a graph -/

/-- `rpo_number`: what has no place has the largest number. -/
def rpoNumber (order : List Nat) (v : Nat) : Nat :=
  if v ∈ order then order.idxOf v else 2 ^ 64 - 1

/-- `preds`, of the nodes that the search saw, which are those of the order. -/
def seenPreds (n : Nat) (succs : Nat → List Nat) (order : List Nat) (s : Nat) : List Nat :=
  (List.range n).flatMap fun v =>
    ((succs v).filter fun t => t = s ∧ v ∈ order ∧ s ∈ order).map fun _ => v

/-- One predecessor: the candidate so far is met with it if it was processed. -/
def meetPred (fuel : Nat) (idom : Nat → Option Nat) (rpo : Nat → Nat) :
    Option Nat → Nat → Option (Option Nat)
  | none, p => some (if (idom p).isSome then some p else none)
  | some cur, p =>
    if (idom p).isSome then (intersect idom rpo fuel cur p).map some else some (some cur)

/-- The candidate of a node is stored even where there is none. -/
def setIdom (state : (Nat → Option Nat) × Bool) (v : Nat) (new : Option Nat) :
    (Nat → Option Nat) × Bool :=
  if state.1 v ≠ new then (Function.update state.1 v new, true) else state

/-- One node of a round. -/
def iterativeStep (fuel : Nat) (preds : Nat → List Nat) (rpo : Nat → Nat)
    (state : (Nat → Option Nat) × Bool) (v : Nat) : Option ((Nat → Option Nat) × Bool) :=
  ((preds v).foldlM (meetPred fuel state.1 rpo) none).map (setIdom state v)

/-- `iterative_idoms`: the immediate dominators, and the nodes seen. -/
def iterativeIdoms (fuel n entry : Nat) (succs : Nat → List Nat) :
    Option ((Nat → Option Nat) × List Nat) :=
  (depthFirst succs fuel [(entry, 0)] [entry] []).bind fun order =>
    (idomLoop (iterativeStep fuel (seenPreds n succs order) (rpoNumber order)) order.tail fuel
      (startIdom entry)).map fun idom => (Function.update idom entry none, order)

/-! ## The reversed graph -/

namespace RegionCfg

/-- `exit_indices` -/
def exitIndices (cfg : RegionCfg) : List Nat :=
  (List.range cfg.len).filter fun b => cfg.succsOf b = []

/-- `rev_succs`: the virtual exit is the node after the last block. -/
def revSuccs (cfg : RegionCfg) (b : Nat) : List Nat :=
  ((List.range cfg.len).flatMap fun v => ((cfg.succsOf v).filter (· = b)).map fun _ => v) ++
    if b = cfg.len then cfg.exitIndices else []

end RegionCfg

/-! ## Queries -/

/-- `PostDomTree`; the arrays are read at blocks only. -/
structure PostDomTree where
  ipdom : Nat → Option Nat
  reachesExit : Nat → Bool

namespace PostDomTree

def compute (fuel : Nat) (cfg : RegionCfg) : Option PostDomTree :=
  (iterativeIdoms fuel (cfg.len + 1) cfg.len cfg.revSuccs).map fun found =>
    { ipdom := fun b => (found.1 b).filter (· ≠ cfg.len)
      reachesExit := fun b => decide (b ∈ found.2) }

/-- The loop of `postdominates`. -/
def climbTo (tree : PostDomTree) (a : Nat) : Nat → Nat → Option Bool
  | 0, _ => none
  | fuel + 1, cur =>
    if cur = a then some true
    else
      match tree.ipdom cur with
      | some next => tree.climbTo a fuel next
      | none => some false

def postdominates (tree : PostDomTree) (fuel a b : Nat) : Option Bool :=
  if tree.reachesExit a = false ∨ tree.reachesExit b = false then some false
  else tree.climbTo a fuel b

end PostDomTree

end Crabbit.Llvm
