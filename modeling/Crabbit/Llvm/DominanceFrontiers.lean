/-
  Crabbit.Llvm.DominanceFrontiers

  Dominance frontiers of the blocks of a region
  (`passes/dominance_frontier.rs`): from each predecessor of a join the tree is
  climbed up to the join's immediate dominator.

  Joins are told by the number of their predecessors.  That misses the entry,
  which one edge joins to itself: the frontiers are those of the paths if and
  only if no edge leads back to the entry.
-/

import Crabbit.Lib.Frontier
import Crabbit.Llvm.DominatorTreeExact

namespace Crabbit.Llvm

open Crabbit.Lib

/-! ## The computation -/

/-- `push_unique` -/
def pushUnique (values : List Nat) (value : Nat) : List Nat :=
  if value ∈ values then values else values ++ [value]

/-- The inner loop: `block` joins the frontiers from `runner` up to `stop`. -/
def runFrontier (idoms : Nat → Option Nat) (stop block : Nat) :
    Nat → (Nat → List Nat) → Nat → Option (Nat → List Nat)
  | 0, _, _ => none
  | fuel + 1, frontiers, runner =>
    if runner = stop then some frontiers
    else (idoms runner).bind fun next =>
      runFrontier idoms stop block fuel
        (Function.update frontiers runner (pushUnique (frontiers runner) block)) next

/-- One block, which is passed over with fewer than two predecessors. -/
def frontierStep (fuel : Nat) (blocks : List Nat) (predecessors : List (List Nat))
    (idoms : Nat → Option Nat) (frontiers : Nat → List Nat) (block : Nat) :
    Option (Nat → List Nat) :=
  if (predecessors.getD block []).length < 2 then some frontiers
  else
    match idoms block with
    | none => some frontiers
    | some stop =>
      (predecessors.getD block []).foldlM
        (runFrontier idoms stop (blocks.getD block 0) fuel) frontiers

/-- `dominance_frontiers` -/
def dominanceFrontiers (fuel : Nat) (blocks : List Nat) (predecessors : List (List Nat))
    (idoms : Nat → Option Nat) : Option (Nat → List Nat) :=
  (List.range predecessors.length).foldlM (frontierStep fuel blocks predecessors idoms) fun _ => []

/-- `DominanceFrontiers` -/
structure DominanceFrontiers where
  blocks : List Nat
  frontiers : Nat → List Nat

def DominanceFrontiers.frontier (found : DominanceFrontiers) (block : Nat) : List Nat :=
  match found.blocks.idxOf? block with
  | some index => found.frontiers index
  | none => []

/-- The frontiers of `compute_dominance_frontiers`. -/
def RegionGraph.dominanceFrontiers (g : RegionGraph) (fuel : Nat) : Option DominanceFrontiers :=
  (g.dominatorTree fuel).bind fun tree =>
    (Llvm.dominanceFrontiers fuel tree.blocks (g.predecessorIndexes tree.blocks) tree.idoms).map
      fun frontiers => ⟨tree.blocks, frontiers⟩

/-! ## What is added -/

theorem mem_pushUnique {values : List Nat} {value w : Nat} :
    w ∈ pushUnique values value ↔ w ∈ values ∨ w = value := by
  rw [pushUnique]
  by_cases h : value ∈ values
  · rw [if_pos h]
    exact ⟨.inl, fun hw => hw.elim id fun heq => heq ▸ h⟩
  · rw [if_neg h, List.mem_append, List.mem_singleton]

/-- Steps that each add to the frontiers, one after the other. -/
theorem exists_foldlM_adds {α : Type} {step : (Nat → List Nat) → α → Option (Nat → List Nat)}
    {adds : α → Nat → Nat → Prop} {xs : List α}
    (h : ∀ x ∈ xs, ∀ frontiers, ∃ frontiers', step frontiers x = some frontiers' ∧
      ∀ r w, w ∈ frontiers' r ↔ w ∈ frontiers r ∨ adds x r w) (frontiers : Nat → List Nat) :
    ∃ frontiers', xs.foldlM step frontiers = some frontiers' ∧
      ∀ r w, w ∈ frontiers' r ↔ w ∈ frontiers r ∨ ∃ x ∈ xs, adds x r w := by
  induction xs generalizing frontiers with
  | nil =>
    refine ⟨frontiers, rfl, fun r w => (or_iff_left ?_).symm⟩
    rintro ⟨x, hx, -⟩
    exact List.not_mem_nil hx
  | cons x xs ih =>
    obtain ⟨next, hnext, hadds⟩ := h x List.mem_cons_self frontiers
    obtain ⟨final, hfinal, hall⟩ := ih (fun y hy => h y (List.mem_cons_of_mem _ hy)) next
    refine ⟨final, ?_, fun r w => ?_⟩
    · rw [List.foldlM_cons, hnext]
      exact hfinal
    · simp only [hall r w, hadds r w, or_assoc, List.mem_cons, exists_eq_or_imp]

section Runs

variable {edge : Nat → Nat → Prop} {idoms : Nat → Option Nat} {n : Nat}
  (hranked : Ranked edge 0 id (List.range n)) (hidom : IsIdom edge 0 idoms)
include hranked hidom

/-- The runner joins the block to what dominates it, but not `stop`. -/
theorem exists_runFrontier {stop block fuel runner : Nat} (hreach : Reaches edge 0 runner)
    (hstop : Dominates edge 0 stop runner) (hfuel : runner < fuel) (frontiers : Nat → List Nat) :
    ∃ frontiers', runFrontier idoms stop block fuel frontiers runner = some frontiers' ∧
      ∀ r w, w ∈ frontiers' r ↔ w ∈ frontiers r ∨
        (w = block ∧ Dominates edge 0 r runner ∧ ¬ Dominates edge 0 r stop) := by
  induction fuel generalizing runner frontiers with
  | zero => exact absurd hfuel (Nat.not_lt_zero _)
  | succ fuel ih =>
    rw [runFrontier]
    by_cases heq : runner = stop
    · refine ⟨frontiers, if_pos heq, fun r w => (or_iff_left ?_).symm⟩
      rintro ⟨-, hr, hnot⟩
      exact hnot (heq ▸ hr)
    · have hne : runner ≠ 0 := by
        rintro rfl
        exact heq hstop.eq_entry.symm
      obtain ⟨next, hnext⟩ := Option.isSome_iff_exists.mp ((hidom.isSome_iff runner).mpr hreach)
      obtain ⟨hnextne, hnextdom, hall⟩ := hidom.immediate runner next hnext hne
      have hlt : next < runner := hranked.dominators next runner hreach hnextdom hnextne
      obtain ⟨frontiers', hrun, hadds⟩ := ih (hnextdom.reaches hreach)
        (hall stop (fun h => heq h.symm) hstop) (by omega)
        (Function.update frontiers runner (pushUnique (frontiers runner) block))
      refine ⟨frontiers', ?_, fun r w => ?_⟩
      · rw [if_neg heq, hnext]
        exact hrun
      · rw [hadds r w]
        by_cases hr : r = runner
        · subst hr
          -- nothing dominates both the node and what dominates it
          have hself : ¬ Dominates edge 0 r stop := fun h => heq (h.antisymm hstop
            (hstop.reaches hreach))
          have hover : ¬ Dominates edge 0 r next := fun h =>
            hnextne (hnextdom.antisymm h hreach)
          rw [Function.update_self, mem_pushUnique]
          constructor
          · rintro (hw | ⟨-, hdom, -⟩)
            · exact hw.imp_right fun heq => ⟨heq, Dominates.refl r, hself⟩
            · exact absurd hdom hover
          · exact fun hw => .inl (hw.imp_right fun h => h.1)
        · have hiff : Dominates edge 0 r next ↔ Dominates edge 0 r runner :=
            ⟨fun h => h.trans hnextdom, hall r hr⟩
          rw [Function.update_of_ne hr, hiff]

end Runs

/-! ## Positions -/

section Joins

variable {predecessors : List (List Nat)} {idoms : Nat → Option Nat} {blocks : List Nat}

/-- `r` is climbed past from a predecessor of `j`. -/
def Joined (predecessors : List (List Nat)) (idoms : Nat → Option Nat) (r j : Nat) : Prop :=
  2 ≤ (predecessors.getD j []).length ∧ ∃ stop, idoms j = some stop ∧
    ∃ pred, IndexEdge predecessors pred j ∧
      Dominates (IndexEdge predecessors) 0 r pred ∧ ¬ Dominates (IndexEdge predecessors) 0 r stop

variable (hranked : Ranked (IndexEdge predecessors) 0 id (List.range predecessors.length))
  (hidom : IsIdom (IndexEdge predecessors) 0 idoms)
  (hpreds : ∀ pred j, IndexEdge predecessors pred j → Reaches (IndexEdge predecessors) 0 pred)
include hranked hidom hpreds

theorem exists_frontierStep {fuel j : Nat} (hfuel : predecessors.length ≤ fuel)
    (hj : j < predecessors.length) (frontiers : Nat → List Nat) :
    ∃ frontiers', frontierStep fuel blocks predecessors idoms frontiers j = some frontiers' ∧
      ∀ r w, w ∈ frontiers' r ↔
        w ∈ frontiers r ∨ (w = blocks.getD j 0 ∧ Joined predecessors idoms r j) := by
  rw [frontierStep]
  by_cases hlen : (predecessors.getD j []).length < 2
  · refine ⟨frontiers, if_pos hlen, fun r w => (or_iff_left ?_).symm⟩
    rintro ⟨-, hjoin, -⟩
    omega
  · have hreach := (hranked.mem_iff j).mp (List.mem_range.mpr hj)
    obtain ⟨stop, hstop⟩ := Option.isSome_iff_exists.mp ((hidom.isSome_iff j).mpr hreach)
    have habove : ∀ pred, IndexEdge predecessors pred j →
        Dominates (IndexEdge predecessors) 0 stop pred := by
      intro pred hpred
      by_cases hj0 : j = 0
      · rw [hj0, hidom.root] at hstop
        exact Option.some.inj hstop ▸ entry_dominates pred
      · obtain ⟨hne, hdom, -⟩ := hidom.immediate j stop hstop hj0
        exact hdom.pred hne hpred
    have hone : ∀ pred ∈ predecessors.getD j [], ∀ frontiers, ∃ frontiers',
        runFrontier idoms stop (blocks.getD j 0) fuel frontiers pred = some frontiers' ∧
          ∀ r w, w ∈ frontiers' r ↔ w ∈ frontiers r ∨
            (w = blocks.getD j 0 ∧ Dominates (IndexEdge predecessors) 0 r pred ∧
              ¬ Dominates (IndexEdge predecessors) 0 r stop) := by
      intro pred hpred frontiers
      have hpr := hpreds pred j hpred
      have hlt := List.mem_range.mp ((hranked.mem_iff pred).mpr hpr)
      exact exists_runFrontier hranked hidom hpr (habove pred hpred) (by omega) frontiers
    obtain ⟨frontiers', hrun, hadds⟩ := exists_foldlM_adds hone frontiers
    refine ⟨frontiers', ?_, fun r w => ?_⟩
    · rw [if_neg hlen, hstop]
      exact hrun
    · rw [hadds r w]
      refine or_congr_right ?_
      constructor
      · rintro ⟨pred, hpred, hw, hdom, hnot⟩
        exact ⟨hw, Nat.le_of_not_lt hlen, stop, hstop, pred, hpred, hdom, hnot⟩
      · rintro ⟨hw, -, stop', hstop', pred, hpred, hdom, hnot⟩
        obtain rfl := Option.some.inj (hstop.symm.trans hstop')
        exact ⟨pred, hpred, hw, hdom, hnot⟩

theorem exists_dominanceFrontiers {fuel : Nat} (hfuel : predecessors.length ≤ fuel) :
    ∃ frontiers, dominanceFrontiers fuel blocks predecessors idoms = some frontiers ∧
      ∀ r w, w ∈ frontiers r ↔
        ∃ j < predecessors.length, w = blocks.getD j 0 ∧ Joined predecessors idoms r j := by
  have hone : ∀ j ∈ List.range predecessors.length, ∀ frontiers, ∃ frontiers',
      frontierStep fuel blocks predecessors idoms frontiers j = some frontiers' ∧
        ∀ r w, w ∈ frontiers' r ↔
          w ∈ frontiers r ∨ (w = blocks.getD j 0 ∧ Joined predecessors idoms r j) :=
    fun j hj frontiers =>
      exists_frontierStep hranked hidom hpreds hfuel (List.mem_range.mp hj) frontiers
  obtain ⟨frontiers, hrun, hadds⟩ := exists_foldlM_adds hone fun _ => []
  refine ⟨frontiers, hrun, fun r w => ?_⟩
  rw [hadds r w, or_iff_right List.not_mem_nil]
  simp only [List.mem_range]

/-- Away from the entry the shortcut loses nothing. -/
theorem joined_iff {r j : Nat} (hj : j < predecessors.length) (hne : j ≠ 0) :
    Joined predecessors idoms r j ↔ InFrontier (IndexEdge predecessors) 0 r j := by
  have hreach := (hranked.mem_iff j).mp (List.mem_range.mpr hj)
  obtain ⟨stop, hstop⟩ := Option.isSome_iff_exists.mp ((hidom.isSome_iff j).mpr hreach)
  constructor
  · rintro ⟨-, stop', hstop', pred, hpred, hdom, hnot⟩
    exact (hidom.inFrontier_iff hne hstop').mpr ⟨pred, hpreds pred j hpred, hpred, hdom, hnot⟩
  · intro hin
    obtain ⟨pred, -, hpred, hdom, hnot⟩ := (hidom.inFrontier_iff hne hstop).mp hin
    refine ⟨?_, stop, hstop, pred, hpred, hdom, hnot⟩
    by_contra hlen
    refine not_inFrontier_of_pred hne (fun u _ hu => ?_) (p := pred) hin
    -- a list with fewer than two members has one
    have hmem : u ∈ predecessors.getD j [] := hu
    have hmem' : pred ∈ predecessors.getD j [] := hpred
    revert hlen hmem hmem'
    generalize predecessors.getD j [] = preds
    intro hlen hmem hmem'
    match preds, hlen, hmem, hmem' with
    | [q], _, hq, hq' => exact (List.mem_singleton.mp hq).trans (List.mem_singleton.mp hq').symm
    | _ :: _ :: _, hlen, _, _ => exact absurd (by simp) hlen

omit hranked hpreds in
/-- The entry never joins its own frontier. -/
theorem not_joined_entry : ¬ Joined predecessors idoms 0 0 := by
  rintro ⟨-, stop, hstop, pred, -, -, hnot⟩
  rw [hidom.root] at hstop
  exact hnot (Option.some.inj hstop ▸ Dominates.refl 0)

end Joins

/-! ## Blocks -/

section Blocks

variable {g : RegionGraph} {blocks : List Nat} (hentry : g.contains 0)
  (h : ReversePostOrder g.Edge 0 blocks)
include hentry h

theorem dominates_positions_iff {a b : Nat} (ha : a ∈ blocks) (hb : b < blocks.length) :
    Dominates (IndexEdge (g.predecessorIndexes blocks)) 0 (blocks.idxOf a) b ↔
      Dominates g.Edge 0 a (blocks.getD b 0) := by
  constructor
  · intro hdom
    have hdom' := dominates_of_index hentry h hb hdom
    rwa [getD_idxOf ha] at hdom'
  · intro hdom
    have hdom' := index_of_dominates hentry h (getD_mem hb) hdom
    rwa [idxOf_getD h.nodup hb] at hdom'

/-- The frontiers between positions are those between their blocks. -/
theorem inFrontier_positions_iff {b j : Nat} (hb : b ∈ blocks) (hj : j < blocks.length) :
    InFrontier (IndexEdge (g.predecessorIndexes blocks)) 0 (blocks.idxOf b) j ↔
      InFrontier g.Edge 0 b (blocks.getD j 0) := by
  have hne : blocks.idxOf b ≠ j ↔ b ≠ blocks.getD j 0 := not_congr
    ⟨fun heq => by rw [← heq, getD_idxOf hb], fun heq => by rw [heq, idxOf_getD h.nodup hj]⟩
  refine and_congr ?_ (not_congr (and_congr hne (dominates_positions_iff hentry h hb hj)))
  constructor
  · rintro ⟨u, hu, he, hdom⟩
    have hul := (reaches_index_iff hentry h).mp hu
    exact ⟨_, (h.mem_iff _).mp (getD_mem hul), edge_of_indexEdge hentry h he,
      (dominates_positions_iff hentry h hb hul).mp hdom⟩
  · rintro ⟨u, hu, he, hdom⟩
    have hum := (h.mem_iff u).mpr hu
    have hul := List.idxOf_lt_length_of_mem hum
    have hedge := indexEdge_of_edge hentry h hu he
    rw [idxOf_getD h.nodup hj] at hedge
    refine ⟨_, (reaches_index_iff hentry h).mpr hul, hedge, ?_⟩
    rw [dominates_positions_iff hentry h hb hul, getD_idxOf hum]
    exact hdom

omit hentry h in
theorem length_predecessorIndexes : (g.predecessorIndexes blocks).length = blocks.length := by
  rw [RegionGraph.predecessorIndexes, List.length_map, List.length_range]

theorem reaches_of_indexEdge {pred j : Nat} (he : IndexEdge (g.predecessorIndexes blocks) pred j) :
    Reaches (IndexEdge (g.predecessorIndexes blocks)) 0 pred :=
  (reaches_index_iff hentry h).mpr ((indexEdge_iff hentry h).mp he).1

theorem joined_positions_iff {idoms : Nat → Option Nat}
    (hidom : IsIdom (IndexEdge (g.predecessorIndexes blocks)) 0 idoms) {r j : Nat}
    (hj : j < blocks.length) (hne : j ≠ 0) : Joined (g.predecessorIndexes blocks) idoms r j ↔
      InFrontier (IndexEdge (g.predecessorIndexes blocks)) 0 r j := by
  have hranked := ranked_positions hentry h
  rw [← length_predecessorIndexes] at hranked hj
  exact joined_iff hranked hidom (fun pred j => reaches_of_indexEdge hentry h) hj hne

omit hentry in
/-- Only what can be reached has a frontier, and is in one. -/
theorem mem_of_inFrontier {b w : Nat} (hin : InFrontier g.Edge 0 b w) :
    b ∈ blocks ∧ w ∈ blocks := by
  obtain ⟨⟨u, hu, he, hdom⟩, -⟩ := hin
  exact ⟨(h.mem_iff b).mpr (hdom.reaches hu), (h.mem_iff w).mpr (hu.step he)⟩

end Blocks

/-- The frontiers end, and hold what the joins say. -/
theorem exists_frontiers {g : RegionGraph} (hentry : g.contains 0) :
    ∃ bound blocks idoms, ReversePostOrder g.Edge 0 blocks ∧
      IsIdom (IndexEdge (g.predecessorIndexes blocks)) 0 idoms ∧
      ∀ fuel > bound, ∃ found, g.dominanceFrontiers fuel = some found ∧
        ∀ b w, w ∈ found.frontier b ↔ b ∈ blocks ∧ ∃ j < blocks.length,
          w = blocks.getD j 0 ∧ Joined (g.predecessorIndexes blocks) idoms (blocks.idxOf b) j := by
  obtain ⟨bound, blocks, idoms, hrun, horder, hidom⟩ := exists_dominatorTree hentry
  have hlen : (g.predecessorIndexes blocks).length = blocks.length := length_predecessorIndexes
  have hranked := ranked_positions hentry horder
  rw [← hlen] at hranked
  refine ⟨max bound blocks.length, blocks, idoms, horder, hidom, fun fuel hfuel => ?_⟩
  have hle : (g.predecessorIndexes blocks).length ≤ fuel := by omega
  obtain ⟨frontiers, hfound, hmem⟩ := @exists_dominanceFrontiers _ _ blocks hranked hidom
    (fun pred j => reaches_of_indexEdge hentry horder) fuel hle
  refine ⟨⟨blocks, frontiers⟩, ?_, fun b w => ?_⟩
  · rw [RegionGraph.dominanceFrontiers, hrun fuel (by omega)]
    show Option.map _ (dominanceFrontiers fuel blocks _ idoms) = _
    rw [hfound]
    rfl
  · rw [hlen] at hmem
    show w ∈ (match blocks.idxOf? b with | some index => frontiers index | none => []) ↔ _
    by_cases hb : b ∈ blocks
    · rw [(idxOf?_eq_some_iff_getD horder.nodup).mpr
        ⟨List.idxOf_lt_length_of_mem hb, getD_idxOf hb⟩]
      exact (hmem _ w).trans (and_iff_right hb).symm
    · rw [List.idxOf?_eq_none_iff.mpr hb]
      exact iff_of_false List.not_mem_nil fun hall => hb hall.1

/-- A region without blocks has no frontiers. -/
theorem dominanceFrontiers_of_empty {g : RegionGraph} (hentry : ¬ g.contains 0) (fuel : Nat) :
    ∃ found, g.dominanceFrontiers fuel = some found ∧
      ∀ b w, w ∈ found.frontier b ↔ InFrontier g.Edge 0 b w := by
  obtain ⟨tree, hrun, hblocks⟩ := dominatorTree_of_empty hentry
  refine ⟨⟨[], fun _ => []⟩, ?_, fun b w => iff_of_false List.not_mem_nil ?_⟩
  · rw [RegionGraph.dominanceFrontiers, hrun fuel]
    show Option.map _ (dominanceFrontiers fuel tree.blocks _ tree.idoms) = _
    rw [hblocks]
    rfl
  · rintro ⟨⟨u, -, he, -⟩, -⟩
    exact hentry (Nat.lt_of_le_of_lt (Nat.zero_le _) he.2)

/-- A block from which an edge leads back to the entry can be reached. -/
def RegionGraph.EntryJoined (g : RegionGraph) : Prop := ∃ u, Reaches g.Edge 0 u ∧ g.Edge u 0

/-- The frontiers are exact, also those iterated from any blocks. -/
def DominanceFrontiers.Exact (g : RegionGraph) (found : DominanceFrontiers) : Prop :=
  (∀ b, Reaches g.Edge 0 b → ∀ w, w ∈ found.frontier b ↔ InFrontier g.Edge 0 b w) ∧
    ∀ start : Set Nat, IsLeast
      {nodes : Set Nat | ∀ b ∈ start ∪ nodes, ∀ w, InFrontier g.Edge 0 b w → w ∈ nodes}
      (iterated found.frontier start)

theorem DominanceFrontiers.exact_of_forall {g : RegionGraph} {found : DominanceFrontiers}
    (h : ∀ b w, w ∈ found.frontier b ↔ InFrontier g.Edge 0 b w) : found.Exact g :=
  ⟨fun b _ => h b, iterated_isLeast h⟩

/-- The computation ends, and its frontiers are exact if and only if no edge
    leads back to the entry. -/
theorem dominanceFrontiers_exact_iff (g : RegionGraph) :
    ∃ bound, ∀ fuel > bound, ∃ found, g.dominanceFrontiers fuel = some found ∧
      (found.Exact g ↔ ¬ g.EntryJoined) := by
  by_cases hentry : g.contains 0
  · obtain ⟨bound, blocks, idoms, horder, hidom, hrun⟩ := exists_frontiers hentry
    refine ⟨bound, fun fuel hfuel => ?_⟩
    obtain ⟨found, hfound, hmem⟩ := hrun fuel hfuel
    refine ⟨found, hfound, ?_, fun hnot => DominanceFrontiers.exact_of_forall fun b w => ?_⟩
    · rintro ⟨hexact, -⟩ ⟨u, hu, he⟩
      -- the entry is in its own frontier, and never put there
      have hin := (hexact 0 ⟨_, .entry⟩ 0).mpr
        (inFrontier_entry_iff.mpr ⟨u, hu, he, entry_dominates u⟩)
      obtain ⟨-, j, hj, hzero, hjoin⟩ := (hmem 0 0).mp hin
      have hj0 : j = 0 := by rw [← idxOf_getD horder.nodup hj, ← hzero, idxOf_zero horder]
      rw [hj0, idxOf_zero horder] at hjoin
      exact not_joined_entry hidom hjoin
    · rw [hmem b w]
      constructor
      · rintro ⟨hb, j, hj, rfl, hjoin⟩
        have hne : j ≠ 0 := by
          rintro rfl
          obtain ⟨-, -, -, pred, hpred, -⟩ := hjoin
          have hlt := ((indexEdge_iff hentry horder).mp hpred).1
          have he := edge_of_indexEdge hentry horder hpred
          rw [getD_zero horder] at he
          exact hnot ⟨_, (horder.mem_iff _).mp (getD_mem hlt), he⟩
        exact (inFrontier_positions_iff hentry horder hb hj).mp
          ((joined_positions_iff hentry horder hidom hj hne).mp hjoin)
      · intro hin
        obtain ⟨hb, hw⟩ := mem_of_inFrontier horder hin
        have hj := List.idxOf_lt_length_of_mem hw
        have hne : blocks.idxOf w ≠ 0 := by
          intro heq
          have hw0 : w = 0 := by rw [← getD_idxOf hw, heq, getD_zero horder]
          obtain ⟨⟨u, hu, he, -⟩, -⟩ := hin
          exact hnot ⟨u, hu, hw0 ▸ he⟩
        refine ⟨hb, _, hj, (getD_idxOf hw).symm,
          (joined_positions_iff hentry horder hidom hj hne).mpr ?_⟩
        rw [inFrontier_positions_iff hentry horder hb hj, getD_idxOf hw]
        exact hin
  · refine ⟨0, fun fuel _ => ?_⟩
    obtain ⟨found, hfound, hexact⟩ := dominanceFrontiers_of_empty hentry fuel
    refine ⟨found, hfound,
      iff_of_true (DominanceFrontiers.exact_of_forall hexact) ?_⟩
    rintro ⟨u, -, he⟩
    exact hentry he.2

/-- A loop of two blocks: the entry is in the frontiers of both, and in neither
    that is computed. -/
theorem dominanceFrontiers_loop :
    ∃ found, (RegionGraph.mk [[1], [0]]).dominanceFrontiers 8 = some found ∧
      found.frontier 0 = [] ∧ found.frontier 1 = [] ∧
      InFrontier (RegionGraph.mk [[1], [0]]).Edge 0 0 0 ∧
      InFrontier (RegionGraph.mk [[1], [0]]).Edge 0 1 0 ∧
      ¬ found.Exact (RegionGraph.mk [[1], [0]]) := by
  have hone : Reaches (RegionGraph.mk [[1], [0]]).Edge 0 1 :=
    ⟨_, Walk.entry.step (by decide : 1 ∈ [1] ∧ 1 < 2)⟩
  have hback : (RegionGraph.mk [[1], [0]]).Edge 1 0 := (by decide : 0 ∈ [0] ∧ 0 < 2)
  have hin : InFrontier (RegionGraph.mk [[1], [0]]).Edge 0 0 0 :=
    inFrontier_entry_iff.mpr ⟨1, hone, hback, entry_dominates 1⟩
  refine ⟨_, rfl, rfl, rfl, hin,
    inFrontier_entry_iff.mpr ⟨1, hone, hback, Dominates.refl 1⟩, ?_⟩
  rintro ⟨hexact, -⟩
  have hmem := (hexact 0 ⟨_, .entry⟩ 0).mpr hin
  exact List.not_mem_nil hmem

end Crabbit.Llvm
