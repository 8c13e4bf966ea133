/-
  Crabbit.Llvm.DominatorTree

  Dominators of the blocks of a region (`passes/dominance_frontier.rs`): the
  reachable blocks in reverse post-order, their predecessors by position, and
  the immediate dominators by the iterative algorithm.
-/

import Crabbit.Lib.IdomTree

namespace Crabbit.Llvm

open Crabbit.Lib

/-! ## The graph -/

/-- The blocks of a region, the entry first, by the targets of their
    terminators.  A target past the end is no block of the region. -/
structure RegionGraph where
  succs : List (List Nat)

namespace RegionGraph

def contains (g : RegionGraph) (b : Nat) : Prop := b < g.succs.length

instance (g : RegionGraph) (b : Nat) : Decidable (g.contains b) :=
  inferInstanceAs (Decidable (_ < _))

def succsOf (g : RegionGraph) (b : Nat) : List Nat := g.succs.getD b []

/-- An edge between blocks of the region. -/
def Edge (g : RegionGraph) (b s : Nat) : Prop := s ∈ g.succsOf b ∧ g.contains s

/-- `visit_reachable_block`, with the depth of its recursion bounded; the state
    is what was seen and the post-order. -/
def visitReachableBlock (g : RegionGraph) : Nat → Nat → List Nat × List Nat →
    Option (List Nat × List Nat)
  | 0, _, _ => none
  | fuel + 1, block, state =>
    if ¬ g.contains block ∨ block ∈ state.1 then some state
    else
      ((g.succsOf block).foldlM (fun state succ => visitReachableBlock g fuel succ state)
        (block :: state.1, state.2)).map fun state => (state.1, state.2 ++ [block])

/-- `reachable_blocks` -/
def reachableBlocks (g : RegionGraph) (fuel : Nat) : Option (List Nat) :=
  if g.succs = [] then some []
  else (g.visitReachableBlock fuel 0 ([], [])).map fun state => state.2.reverse

/-- The positions of the predecessors of the block at a position, once for each
    edge. -/
def predecessorsAt (g : RegionGraph) (blocks : List Nat) (succIndex : Nat) : List Nat :=
  (List.range blocks.length).flatMap fun blockIndex =>
    ((g.succsOf (blocks.getD blockIndex 0)).filter fun succ =>
      blocks.idxOf? succ = some succIndex).map fun _ => blockIndex

/-- `predecessor_indexes` -/
def predecessorIndexes (g : RegionGraph) (blocks : List Nat) : List (List Nat) :=
  (List.range blocks.length).map (g.predecessorsAt blocks)

end RegionGraph

/-! ## Immediate dominators -/

/-- `intersect_idoms`: positions are ranks. -/
def intersectIdoms (fuel : Nat) (idoms : Nat → Option Nat) (lhs rhs : Nat) : Option Nat :=
  intersect idoms id fuel lhs rhs

/-- The new immediate dominator of a block; `some none` if no predecessor was
    processed. -/
def newIdom (fuel : Nat) (idoms : Nat → Option Nat) (preds : List Nat) : Option (Option Nat) :=
  match preds.filter fun pred => (idoms pred).isSome with
  | [] => some none
  | first :: rest =>
    (rest.foldlM (fun new pred => intersectIdoms fuel idoms pred new) first).map some

/-- A block without a processed predecessor is passed over. -/
def storeIdom (state : (Nat → Option Nat) × Bool) (block : Nat) :
    Option Nat → (Nat → Option Nat) × Bool
  | none => state
  | some new =>
    if state.1 block ≠ some new then (Function.update state.1 block (some new), true) else state

/-- One block, with the flag `changed`. -/
def idomStep (fuel : Nat) (predecessors : List (List Nat)) (state : (Nat → Option Nat) × Bool)
    (block : Nat) : Option ((Nat → Option Nat) × Bool) :=
  (newIdom fuel state.1 (predecessors.getD block [])).map (storeIdom state block)

/-- `immediate_dominators` -/
def immediateDominators (fuel : Nat) (predecessors : List (List Nat)) : Option (Nat → Option Nat) :=
  if predecessors = [] then some fun _ => none
  else idomLoop (idomStep fuel predecessors) (List.range' 1 (predecessors.length - 1)) fuel
    (startIdom 0)

/-- `DominatorTree`; the children of a block follow from the rest. -/
structure DominatorTree where
  blocks : List Nat
  idoms : Nat → Option Nat

namespace DominatorTree

def immediateDominator (tree : DominatorTree) (block : Nat) : Option Nat :=
  (tree.blocks.idxOf? block).bind fun index => (tree.idoms index).bind fun idom =>
    if idom ≠ index then tree.blocks[idom]? else none

/-- `children`, which `dominator_children` collects. -/
def children (tree : DominatorTree) (block : Nat) : List Nat :=
  match tree.blocks.idxOf? block with
  | some index =>
    ((List.range' 1 (tree.blocks.length - 1)).filter fun child =>
      tree.idoms child = some index).map fun child => tree.blocks.getD child 0
  | none => []

end DominatorTree

/-- The tree of `compute_dominance_frontiers`. -/
def RegionGraph.dominatorTree (g : RegionGraph) (fuel : Nat) : Option DominatorTree :=
  (g.reachableBlocks fuel).bind fun blocks =>
    (immediateDominators fuel (g.predecessorIndexes blocks)).map fun idoms => ⟨blocks, idoms⟩

end Crabbit.Llvm
