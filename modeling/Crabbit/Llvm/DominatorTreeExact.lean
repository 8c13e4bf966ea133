/-
  Crabbit.Llvm.DominatorTreeExact

  The tree of immediate dominators is that of the paths through the region,
  whatever its graph, and both loops that compute it end.
-/

import Crabbit.Llvm.DominatorTree
import Mathlib.Data.List.GetD

namespace Crabbit.Llvm

open Crabbit.Lib

/-! ## The reachable blocks -/

namespace RegionGraph

variable {g : RegionGraph}

theorem visitReachableBlock_skip {fuel b : Nat} {state : List Nat × List Nat}
    (h : ¬ g.contains b ∨ b ∈ state.1) :
    g.visitReachableBlock (fuel + 1) b state = some state := by
  rw [visitReachableBlock, if_pos h]

theorem visitReachableBlock_enter {fuel b : Nat} {state : List Nat × List Nat}
    (h : ¬ (¬ g.contains b ∨ b ∈ state.1)) :
    g.visitReachableBlock (fuel + 1) b state =
      ((g.succsOf b).foldlM (fun state succ => g.visitReachableBlock fuel succ state)
        (b :: state.1, state.2)).map fun state => (state.1, state.2 ++ [b]) := by
  rw [visitReachableBlock, if_neg h]

/-- What a visit from the end of a path leaves. -/
def Visits (g : RegionGraph) (path : List Nat) (state state' : List Nat × List Nat) : Prop :=
  Search g.Edge 0 path state'.1 state'.2.reverse ∧ ∀ b ∈ state.1, b ∈ state'.1

/-- Visits one after the other, if each is sound. -/
theorem foldlM_visits {fuel : Nat} {path : List Nat} {succs : List Nat}
    (hone : ∀ s ∈ succs, ∀ state state', g.visitReachableBlock fuel s state = some state' →
      Search g.Edge 0 path state.1 state.2.reverse →
      g.Visits path state state' ∧ (g.contains s → s ∈ state'.1))
    {state state' : List Nat × List Nat}
    (h : succs.foldlM (fun state succ => g.visitReachableBlock fuel succ state) state = some state')
    (hsearch : Search g.Edge 0 path state.1 state.2.reverse) :
    g.Visits path state state' ∧ ∀ s ∈ succs, g.contains s → s ∈ state'.1 := by
  induction succs generalizing state with
  | nil =>
    obtain rfl := Option.some.inj h
    exact ⟨⟨hsearch, fun _ hb => hb⟩, fun _ hs => absurd hs List.not_mem_nil⟩
  | cons s succs ih =>
    rw [List.foldlM_cons] at h
    obtain ⟨next, hnext, hrest⟩ := Option.bind_eq_some_iff.mp h
    obtain ⟨⟨hsearch', hkeep⟩, hseen⟩ := hone s List.mem_cons_self _ _ hnext hsearch
    obtain ⟨⟨hfinal, hkeep'⟩, hall⟩ :=
      ih (fun t ht => hone t (List.mem_cons_of_mem _ ht)) hrest hsearch'
    refine ⟨⟨hfinal, fun t ht => hkeep' t (hkeep t ht)⟩, fun t ht htc => ?_⟩
    rcases List.mem_cons.mp ht with rfl | ht
    · exact hkeep' t (hseen htc)
    · exact hall t ht htc

theorem visit_sound {fuel : Nat} {u b : Nat} {path : List Nat} {state state' : List Nat × List Nat}
    (h : g.visitReachableBlock fuel b state = some state')
    (hsearch : Search g.Edge 0 (u :: path) state.1 state.2.reverse)
    (hedge : g.contains b → g.Edge u b) :
    g.Visits (u :: path) state state' ∧ (g.contains b → b ∈ state'.1) := by
  induction fuel generalizing u b path state state' with
  | zero => cases h
  | succ fuel ih =>
    by_cases hskip : ¬ g.contains b ∨ b ∈ state.1
    · rw [visitReachableBlock_skip hskip] at h
      obtain rfl := Option.some.inj h
      exact ⟨⟨hsearch, fun _ hb => hb⟩, fun hb => hskip.resolve_left (not_not.mpr hb)⟩
    · rw [visitReachableBlock_enter hskip] at h
      obtain ⟨hb, hnew⟩ := not_or.mp hskip
      obtain ⟨final, hrun, rfl⟩ := Option.map_eq_some_iff.mp h
      obtain ⟨⟨hfinal, hkeep⟩, hall⟩ := foldlM_visits
        (fun s hs _ _ hvisit hmiddle => ih hvisit hmiddle fun hsc => ⟨hs, hsc⟩) hrun
        (hsearch.enter (hedge (not_not.mp hb)) hnew)
      have hleave := hfinal.leave fun s hs => hall s hs.1 hs.2
      refine ⟨⟨?_, fun t ht => hkeep t (List.mem_cons_of_mem _ ht)⟩, fun _ =>
        hkeep b List.mem_cons_self⟩
      show Search g.Edge 0 (u :: path) final.1 (final.2 ++ [b]).reverse
      rw [List.reverse_append]
      exact hleave

/-- The visit of the entry ends with a reverse post-order. -/
theorem reachableBlocks_sound {fuel : Nat} {blocks : List Nat} (hentry : g.contains 0)
    (h : g.reachableBlocks fuel = some blocks) : ReversePostOrder g.Edge 0 blocks := by
  have hne : ¬ g.succs = [] := List.length_pos_iff.mp hentry
  rw [reachableBlocks, if_neg hne] at h
  obtain ⟨state, hvisit, rfl⟩ := Option.map_eq_some_iff.mp h
  cases fuel with
  | zero => cases hvisit
  | succ fuel =>
    have hskip : ¬ (¬ g.contains 0 ∨ 0 ∈ (([], []) : List Nat × List Nat).1) :=
      not_or.mpr ⟨not_not.mpr hentry, List.not_mem_nil⟩
    rw [visitReachableBlock_enter hskip] at hvisit
    obtain ⟨final, hrun, rfl⟩ := Option.map_eq_some_iff.mp hvisit
    obtain ⟨⟨hfinal, -⟩, hall⟩ := foldlM_visits
      (fun s hs _ _ hvisit hmiddle => visit_sound hvisit hmiddle fun hsc => ⟨hs, hsc⟩) hrun
      (Search.start g.Edge 0)
    have hleave := (hfinal.leave fun s hs => hall s hs.1 hs.2).reversePostOrder
    show ReversePostOrder g.Edge 0 (final.2 ++ [0]).reverse
    rw [List.reverse_append]
    exact hleave

/-! ### The recursion ends -/

/-- The blocks not seen yet. -/
def unseen (g : RegionGraph) (seen : List Nat) : Nat :=
  (List.range g.succs.length).countP fun b => decide (b ∉ seen)

theorem unseen_le {seen seen' : List Nat} (h : ∀ b ∈ seen, b ∈ seen') :
    g.unseen seen' ≤ g.unseen seen := by
  refine List.countP_mono_left fun b _ hb => ?_
  exact decide_eq_true fun hmem => of_decide_eq_true hb (h b hmem)

theorem unseen_cons_lt {seen : List Nat} {b : Nat} (hb : g.contains b) (hnew : b ∉ seen) :
    g.unseen (b :: seen) < g.unseen seen := by
  have hmem : b ∈ List.range g.succs.length := List.mem_range.mpr hb
  obtain ⟨before, after, hsplit⟩ := List.append_of_mem hmem
  have hbefore : ∀ l : List Nat, l.countP (fun x => decide (x ∉ b :: seen)) ≤
      l.countP fun x => decide (x ∉ seen) := fun l => List.countP_mono_left fun x _ hx =>
    decide_eq_true fun hmem => of_decide_eq_true hx (List.mem_cons_of_mem _ hmem)
  have h1 := hbefore before
  have h2 := hbefore after
  rw [unseen, unseen, hsplit, List.countP_append, List.countP_append, List.countP_cons,
    List.countP_cons, if_pos (decide_eq_true hnew),
    if_neg (by simp)]
  omega

theorem exists_visit {fuel b : Nat} {state : List Nat × List Nat} (h : g.unseen state.1 < fuel) :
    ∃ state', g.visitReachableBlock fuel b state = some state' ∧ ∀ t ∈ state.1, t ∈ state'.1 := by
  induction fuel generalizing b state with
  | zero => exact absurd h (Nat.not_lt_zero _)
  | succ fuel ih =>
    by_cases hskip : ¬ g.contains b ∨ b ∈ state.1
    · exact ⟨state, visitReachableBlock_skip hskip, fun _ ht => ht⟩
    · obtain ⟨hb, hnew⟩ := not_or.mp hskip
      have hlt := unseen_cons_lt (not_not.mp hb) hnew
      have hfold : ∀ (succs : List Nat) (middle : List Nat × List Nat), g.unseen middle.1 < fuel →
          ∃ final, succs.foldlM (fun state succ => g.visitReachableBlock fuel succ state) middle =
            some final ∧ ∀ t ∈ middle.1, t ∈ final.1 := by
        intro succs
        induction succs with
        | nil => exact fun middle _ => ⟨middle, rfl, fun _ ht => ht⟩
        | cons s succs ihsuccs =>
          intro middle hmiddle
          obtain ⟨next, hnext, hkeep⟩ := ih (b := s) hmiddle
          obtain ⟨final, hfinal, hkeep'⟩ := ihsuccs next
            (Nat.lt_of_le_of_lt (unseen_le hkeep) hmiddle)
          refine ⟨final, ?_, fun t ht => hkeep' t (hkeep t ht)⟩
          rw [List.foldlM_cons, hnext]
          exact hfinal
      obtain ⟨final, hrun, hkeep⟩ := hfold (g.succsOf b) (b :: state.1, state.2)
        (Nat.lt_of_lt_of_le hlt (Nat.le_of_lt_succ h))
      refine ⟨(final.1, final.2 ++ [b]), ?_, fun t ht => hkeep t (List.mem_cons_of_mem _ ht)⟩
      rw [visitReachableBlock_enter hskip, hrun]
      rfl

/-- More depth changes nothing. -/
theorem visitReachableBlock_le {fuel fuel' : Nat} (hle : fuel ≤ fuel') {b : Nat}
    {state state' : List Nat × List Nat} (h : g.visitReachableBlock fuel b state = some state') :
    g.visitReachableBlock fuel' b state = some state' := by
  induction fuel generalizing fuel' b state state' with
  | zero => cases h
  | succ fuel ih =>
    obtain ⟨fuel', rfl⟩ : ∃ n, fuel' = n + 1 := ⟨fuel' - 1, by omega⟩
    by_cases hskip : ¬ g.contains b ∨ b ∈ state.1
    · rw [visitReachableBlock_skip hskip] at h ⊢
      exact h
    · rw [visitReachableBlock_enter hskip] at h ⊢
      have hfold : ∀ (succs : List Nat) (middle final : List Nat × List Nat),
          succs.foldlM (fun state succ => g.visitReachableBlock fuel succ state) middle =
            some final →
          succs.foldlM (fun state succ => g.visitReachableBlock fuel' succ state) middle =
            some final := by
        intro succs
        induction succs with
        | nil => exact fun _ _ hrun => hrun
        | cons s succs ihsuccs =>
          intro middle final hrun
          rw [List.foldlM_cons] at hrun ⊢
          obtain ⟨next, hnext, hrest⟩ := Option.bind_eq_some_iff.mp hrun
          exact Option.bind_eq_some_iff.mpr
            ⟨next, ih (Nat.le_of_succ_le_succ hle) hnext, ihsuccs next final hrest⟩
      obtain ⟨final, hrun, rfl⟩ := Option.map_eq_some_iff.mp h
      rw [hfold _ _ _ hrun]
      rfl

theorem exists_reachableBlocks (hentry : g.contains 0) :
    ∃ blocks, (∀ fuel > g.succs.length, g.reachableBlocks fuel = some blocks) ∧
      ReversePostOrder g.Edge 0 blocks := by
  have hne : ¬ g.succs = [] := List.length_pos_iff.mp hentry
  have hcount : g.unseen [] ≤ g.succs.length := by
    have hle : g.unseen [] ≤ (List.range g.succs.length).length := List.countP_le_length
    rwa [List.length_range] at hle
  have hlt : g.unseen (([], []) : List Nat × List Nat).1 < g.succs.length + 1 :=
    Nat.lt_succ_of_le hcount
  obtain ⟨state, hvisit, -⟩ := exists_visit (b := 0) hlt
  have hrun : ∀ fuel > g.succs.length, g.reachableBlocks fuel = some state.2.reverse := by
    intro fuel hfuel
    rw [reachableBlocks, if_neg hne, visitReachableBlock_le hfuel hvisit]
    rfl
  exact ⟨state.2.reverse, hrun, reachableBlocks_sound hentry (hrun _ (Nat.lt_succ_self _))⟩

end RegionGraph

/-! ## The iteration -/

/-- An edge between positions. -/
def IndexEdge (predecessors : List (List Nat)) (i j : Nat) : Prop := i ∈ predecessors.getD j []

theorem exists_newIdom {predecessors : List (List Nat)} {n fuel : Nat} {idoms : Nat → Option Nat}
    (hranked : Ranked (IndexEdge predecessors) 0 id (List.range n)) (hfuel : 2 * n < fuel)
    (h : Candidates (IndexEdge predecessors) 0 id idoms) {v : Nat}
    (hpred : ∃ u, IndexEdge predecessors u v ∧ (idoms u).isSome) :
    ∃ z, Nearest (IndexEdge predecessors) 0 idoms v z ∧
      newIdom fuel idoms (predecessors.getD v []) = some (some z) := by
  have hlt : ∀ a, (idoms a).isSome → a < n := fun a ha =>
    List.mem_range.mp ((hranked.mem_iff a).mpr (h.reaches_of_isSome ha))
  have hmeet : ∀ a b, (idoms a).isSome → (idoms b).isSome →
      ∃ z, intersectIdoms fuel idoms b a = some z ∧
        Meets (IndexEdge predecessors) 0 idoms a b z := by
    intro a b ha hb
    have hab : id b + id a + 1 < fuel := by
      have := hlt a ha
      have := hlt b hb
      show b + a + 1 < fuel
      omega
    obtain ⟨z, hz, hmeets⟩ := exists_intersect hranked h hb ha hab
    exact ⟨z, hz, hmeets.processed, hmeets.right, hmeets.left,
      fun d hda hdb => hmeets.below d hdb hda⟩
  cases hfilter : (predecessors.getD v []).filter fun pred => (idoms pred).isSome with
  | nil =>
    obtain ⟨u, hu, husome⟩ := hpred
    have hmem : u ∈ (predecessors.getD v []).filter fun pred => (idoms pred).isSome :=
      List.mem_filter.mpr ⟨hu, husome⟩
    rw [hfilter] at hmem
    exact absurd hmem List.not_mem_nil
  | cons first rest =>
    have hmem : ∀ q, q ∈ first :: rest ↔ IndexEdge predecessors q v ∧ (idoms q).isSome := by
      intro q
      rw [← hfilter, List.mem_filter]
      rfl
    obtain ⟨z, hz, hfold⟩ := exists_nearest hmeet hmem
    refine ⟨z, hz, ?_⟩
    rw [newIdom, hfilter]
    change (rest.foldlM (fun new pred => intersectIdoms fuel idoms pred new) first).map some = _
    rw [hfold]
    rfl

theorem idomStep_findsNearest {predecessors : List (List Nat)} {n fuel : Nat}
    (hranked : Ranked (IndexEdge predecessors) 0 id (List.range n)) (hfuel : 2 * n < fuel) :
    FindsNearest (IndexEdge predecessors) 0 id (idomStep fuel predecessors) := by
  intro idoms changed v h _ _ hpred
  obtain ⟨z, hz, hnew⟩ := exists_newIdom hranked hfuel h hpred
  refine ⟨z, hz, ?_⟩
  rw [idomStep, hnew]
  refine congrArg some ?_
  rw [storeIdom]
  by_cases hsame : idoms v = some z
  · rw [if_neg (not_not.mpr hsame), decide_eq_false (not_not.mpr hsame), Bool.or_false, ← hsame,
      Function.update_eq_self]
  · rw [if_pos hsame, decide_eq_true hsame, Bool.or_true]

/-- For positions in reverse post-order the iteration ends with the immediate
    dominators. -/
theorem exists_immediateDominators {predecessors : List (List Nat)}
    (hne : predecessors ≠ [])
    (hranked : Ranked (IndexEdge predecessors) 0 id (List.range predecessors.length)) :
    ∃ rounds idoms, (∀ fuel > rounds, immediateDominators fuel predecessors = some idoms) ∧
      IsIdom (IndexEdge predecessors) 0 idoms := by
  obtain ⟨rounds, hrounds⟩ := exists_idomLoop hranked
  have htail : (List.range predecessors.length).tail = List.range' 1 (predecessors.length - 1) := by
    obtain ⟨n, hn⟩ : ∃ n, predecessors.length = n + 1 :=
      ⟨predecessors.length - 1, by have := List.length_pos_iff.mpr hne; omega⟩
    rw [hn, List.range_eq_range', List.range'_succ, List.tail_cons, Nat.add_sub_cancel]
  have hrun : ∀ fuel > max rounds (2 * predecessors.length), ∃ idoms,
      immediateDominators fuel predecessors = some idoms ∧
        IsIdom (IndexEdge predecessors) 0 idoms := by
    intro fuel hfuel
    obtain ⟨idoms, hloop, htree⟩ := hrounds _ (idomStep_findsNearest hranked
      (by omega : 2 * predecessors.length < fuel))
    refine ⟨idoms, ?_, htree⟩
    rw [immediateDominators, if_neg hne, ← htail]
    exact hloop fuel (by omega)
  obtain ⟨idoms, -, htree⟩ := hrun _ (Nat.lt_succ_self _)
  refine ⟨max rounds (2 * predecessors.length), idoms, fun fuel hfuel => ?_, htree⟩
  obtain ⟨idoms', hrun', htree'⟩ := hrun fuel hfuel
  rw [hrun', htree'.unique htree]

/-! ## From positions to blocks -/

section Positions

variable {g : RegionGraph} {blocks : List Nat}

theorem idxOf?_eq_some_iff_getD (hnodup : blocks.Nodup) {b j : Nat} :
    blocks.idxOf? b = some j ↔ j < blocks.length ∧ blocks.getD j 0 = b := by
  rw [List.idxOf?_eq_some_iff]
  constructor
  · rintro ⟨hj, heq, -⟩
    exact ⟨hj, by rw [List.getD_eq_getElem _ _ hj, heq]⟩
  · rintro ⟨hj, heq⟩
    rw [List.getD_eq_getElem _ _ hj] at heq
    refine ⟨hj, heq, fun i hi hib => ?_⟩
    have hij := hnodup.getElem_inj_iff.mp (hib.trans heq.symm)
    omega

theorem getD_idxOf {b : Nat} (hb : b ∈ blocks) : blocks.getD (blocks.idxOf b) 0 = b := by
  rw [List.getD_eq_getElem _ _ (List.idxOf_lt_length_of_mem hb), List.getElem_idxOf]

theorem idxOf_getD (hnodup : blocks.Nodup) {i : Nat} (hi : i < blocks.length) :
    blocks.idxOf (blocks.getD i 0) = i := by
  rw [List.getD_eq_getElem _ _ hi, hnodup.idxOf_getElem]

theorem getD_mem {i : Nat} (hi : i < blocks.length) : blocks.getD i 0 ∈ blocks := by
  rw [List.getD_eq_getElem _ _ hi]
  exact List.getElem_mem hi

theorem mem_predecessorsAt (hnodup : blocks.Nodup) {i j : Nat} :
    i ∈ g.predecessorsAt blocks j ↔
      i < blocks.length ∧ j < blocks.length ∧ blocks.getD j 0 ∈ g.succsOf (blocks.getD i 0) := by
  simp only [RegionGraph.predecessorsAt, List.mem_flatMap, List.mem_range, List.mem_map,
    List.mem_filter, decide_eq_true_eq, idxOf?_eq_some_iff_getD hnodup]
  constructor
  · rintro ⟨i', hi, s, ⟨hs, hj, rfl⟩, rfl⟩
    exact ⟨hi, hj, hs⟩
  · rintro ⟨hi, hj, hs⟩
    exact ⟨i, hi, _, ⟨hs, hj, rfl⟩, rfl⟩

variable (hentry : g.contains 0) (h : ReversePostOrder g.Edge 0 blocks)

include hentry in
theorem contains_of_reaches {b : Nat} (hb : Reaches g.Edge 0 b) : g.contains b := by
  obtain ⟨visited, hwalk⟩ := hb
  cases hwalk with
  | entry => exact hentry
  | step _ he => exact he.2

include hentry h

theorem indexEdge_iff {i j : Nat} : IndexEdge (g.predecessorIndexes blocks) i j ↔
    i < blocks.length ∧ j < blocks.length ∧ g.Edge (blocks.getD i 0) (blocks.getD j 0) := by
  rw [IndexEdge, RegionGraph.predecessorIndexes]
  by_cases hj : j < blocks.length
  · have hj' : j < ((List.range blocks.length).map (g.predecessorsAt blocks)).length := by
      rwa [List.length_map, List.length_range]
    have hcontains := contains_of_reaches hentry ((h.mem_iff _).mp (getD_mem hj))
    rw [List.getD_eq_getElem _ _ hj', List.getElem_map, List.getElem_range,
      mem_predecessorsAt h.nodup]
    exact and_congr_right fun _ => and_congr_right fun _ => (and_iff_left hcontains).symm
  · have hj' : ¬ j < ((List.range blocks.length).map (g.predecessorsAt blocks)).length := by
      rwa [List.length_map, List.length_range]
    rw [List.getD_eq_default _ _ (Nat.le_of_not_lt hj')]
    exact iff_of_false List.not_mem_nil fun hall => hj hall.2.1

omit hentry in
theorem length_pos : 0 < blocks.length :=
  List.length_pos_of_mem ((h.mem_iff 0).mpr ⟨_, .entry⟩)

omit hentry in
theorem getD_zero : blocks.getD 0 0 = 0 := by
  have hhead := h.head_eq
  rw [List.head?_eq_getElem?] at hhead
  rw [List.getD_eq_getElem?_getD, hhead, Option.getD_some]

omit hentry in
theorem idxOf_zero : blocks.idxOf 0 = 0 := by
  have hself := idxOf_getD h.nodup (length_pos h)
  rwa [getD_zero h] at hself

/-- An edge between positions is one between their blocks, and the other way. -/
theorem edge_of_indexEdge {i j : Nat} (he : IndexEdge (g.predecessorIndexes blocks) i j) :
    g.Edge (blocks.getD i 0) (blocks.getD j 0) := ((indexEdge_iff hentry h).mp he).2.2

theorem indexEdge_of_edge {u v : Nat} (hu : Reaches g.Edge 0 u) (he : g.Edge u v) :
    IndexEdge (g.predecessorIndexes blocks) (blocks.idxOf u) (blocks.idxOf v) := by
  have hub := (h.mem_iff u).mpr hu
  have hvb := (h.mem_iff v).mpr (hu.step he)
  refine (indexEdge_iff hentry h).mpr
    ⟨List.idxOf_lt_length_of_mem hub, List.idxOf_lt_length_of_mem hvb, ?_⟩
  rwa [getD_idxOf hub, getD_idxOf hvb]

theorem reaches_index_iff {i : Nat} :
    Reaches (IndexEdge (g.predecessorIndexes blocks)) 0 i ↔ i < blocks.length := by
  constructor
  · rintro ⟨visited, hwalk⟩
    cases hwalk with
    | entry => exact length_pos h
    | step _ he => exact ((indexEdge_iff hentry h).mp he).2.1
  · intro hi
    have hreach := ((h.mem_iff _).mp (getD_mem hi)).map
      fun u v => indexEdge_of_edge hentry h (u := u) (v := v)
    rwa [idxOf_zero h, idxOf_getD h.nodup hi] at hreach

theorem dominates_of_index {a b : Nat} (hb : b < blocks.length)
    (hdom : Dominates (IndexEdge (g.predecessorIndexes blocks)) 0 a b) :
    Dominates g.Edge 0 (blocks.getD a 0) (blocks.getD b 0) := by
  have hmap := @Dominates.map _ (IndexEdge (g.predecessorIndexes blocks)) 0 _ g.Edge
    (fun i => blocks.getD i 0) blocks.idxOf
  simp only [getD_zero h, idxOf_zero h] at hmap
  exact hmap (fun u v hu he => indexEdge_of_edge hentry h hu he)
    (fun w hw => getD_idxOf ((h.mem_iff w).mpr hw)) hdom (idxOf_getD h.nodup hb)

theorem index_of_dominates {a b : Nat} (hb : b ∈ blocks) (hdom : Dominates g.Edge 0 a b) :
    Dominates (IndexEdge (g.predecessorIndexes blocks)) 0 (blocks.idxOf a) (blocks.idxOf b) := by
  have hmap := @Dominates.map _ g.Edge 0 _ (IndexEdge (g.predecessorIndexes blocks)) blocks.idxOf
    fun i => blocks.getD i 0
  simp only [getD_zero h, idxOf_zero h] at hmap
  exact hmap (fun u v _ he => edge_of_indexEdge hentry h he)
    (fun w hw => idxOf_getD h.nodup ((reaches_index_iff hentry h).mp hw)) hdom (getD_idxOf hb)

/-- The positions are ranks. -/
theorem ranked_positions :
    Ranked (IndexEdge (g.predecessorIndexes blocks)) 0 id (List.range blocks.length) where
  sorted := List.pairwise_lt_range
  mem_iff i := List.mem_range.trans (reaches_index_iff hentry h).symm
  head := by
    rw [List.head?_range, if_neg (Nat.ne_of_gt (length_pos h))]
  dominators a b hb hdom hne := by
    have hbl := (reaches_index_iff hentry h).mp hb
    have hal := (reaches_index_iff hentry h).mp (hdom.reaches hb)
    have hlt := h.idxOf_lt ((h.mem_iff _).mp (getD_mem hbl)) (dominates_of_index hentry h hbl hdom)
      fun heq => hne (by rw [← idxOf_getD h.nodup hal, heq, idxOf_getD h.nodup hbl])
    rwa [idxOf_getD h.nodup hal, idxOf_getD h.nodup hbl] at hlt
  parent j hj hne := by
    have hjl := List.mem_range.mp hj
    have hranked : Ranked g.Edge 0 blocks.idxOf blocks := h.ranked fun _ _ => rfl
    obtain ⟨u, hu, he, hlt⟩ := hranked.parent _ (getD_mem hjl) fun heq =>
      hne (by rw [← idxOf_getD h.nodup hjl, heq, idxOf_zero h])
    have hedge := indexEdge_of_edge hentry h ((h.mem_iff u).mp hu) he
    rw [idxOf_getD h.nodup hjl] at hlt hedge
    exact ⟨_, List.mem_range.mpr (List.idxOf_lt_length_of_mem hu), hedge, hlt⟩

/-- The immediate dominators by position, of blocks. -/
theorem immediatelyDominates_index_iff {z b : Nat} (hb : b ∈ blocks) (hz : z < blocks.length) :
    ImmediatelyDominates (IndexEdge (g.predecessorIndexes blocks)) 0 z (blocks.idxOf b) ↔
      ImmediatelyDominates g.Edge 0 (blocks.getD z 0) b := by
  have hbl := List.idxOf_lt_length_of_mem hb
  have hbr := (h.mem_iff b).mp hb
  have hne : z ≠ blocks.idxOf b ↔ blocks.getD z 0 ≠ b := not_congr
    ⟨fun heq => by rw [heq, getD_idxOf hb], fun heq => by rw [← heq, idxOf_getD h.nodup hz]⟩
  have hdom : Dominates (IndexEdge (g.predecessorIndexes blocks)) 0 z (blocks.idxOf b) ↔
      Dominates g.Edge 0 (blocks.getD z 0) b := by
    constructor
    · intro hd
      have hd' := dominates_of_index hentry h hbl hd
      rwa [getD_idxOf hb] at hd'
    · intro hd
      have hd' := index_of_dominates hentry h hb hd
      rwa [idxOf_getD h.nodup hz] at hd'
  refine and_congr hne (and_congr hdom ?_)
  constructor
  · intro hall d hdb hd
    have hdm := (h.mem_iff d).mpr (hd.reaches hbr)
    have hd' := hall _ (fun heq => hdb (by rw [← getD_idxOf hdm, heq, getD_idxOf hb]))
      (index_of_dominates hentry h hb hd)
    have hd'' := dominates_of_index hentry h hz hd'
    rwa [getD_idxOf hdm] at hd''
  · intro hall d hdb hd
    have hdl := (reaches_index_iff hentry h).mp
      (hd.reaches ((reaches_index_iff hentry h).mpr hbl))
    have hd' := dominates_of_index hentry h hbl hd
    rw [getD_idxOf hb] at hd'
    have hd'' := index_of_dominates hentry h (getD_mem hz) (hall _ (fun heq =>
      hdb (by rw [← heq, idxOf_getD h.nodup hdl])) hd')
    rwa [idxOf_getD h.nodup hz, idxOf_getD h.nodup hdl] at hd''

variable {idoms : Nat → Option Nat}
  (hidom : IsIdom (IndexEdge (g.predecessorIndexes blocks)) 0 idoms)

include hidom

theorem idom_lt {i z : Nat} (hz : idoms i = some z) : i < blocks.length ∧ z < blocks.length := by
  have hi := (hidom.isSome_iff i).mp (by rw [hz]; rfl)
  by_cases hi0 : i = 0
  · rw [hi0, hidom.root] at hz
    rw [hi0, ← Option.some.inj hz]
    exact ⟨length_pos h, length_pos h⟩
  · have hzr := (hidom.immediate i z hz hi0).2.1.reaches hi
    exact ⟨(reaches_index_iff hentry h).mp hi, (reaches_index_iff hentry h).mp hzr⟩

/-- What the tree answers is the immediate dominator of the block. -/
theorem immediateDominator_eq_some_iff {b z : Nat} :
    (DominatorTree.mk blocks idoms).immediateDominator b = some z ↔
      Reaches g.Edge 0 b ∧ b ≠ 0 ∧ ImmediatelyDominates g.Edge 0 z b := by
  rw [DominatorTree.immediateDominator, Option.bind_eq_some_iff]
  simp only [idxOf?_eq_some_iff_getD h.nodup, Option.bind_eq_some_iff]
  constructor
  · rintro ⟨i, ⟨hi, rfl⟩, y, hy, hres⟩
    have hyl := (idom_lt hentry h hidom hy).2
    by_cases hyi : y = i
    · rw [if_neg (not_not.mpr hyi)] at hres
      cases hres
    · rw [if_pos hyi, List.getElem?_eq_getElem hyl] at hres
      have hi0 : i ≠ 0 := by
        rintro rfl
        rw [hidom.root] at hy
        exact hyi (Option.some.inj hy).symm
      have himm := hidom.immediate i y hy hi0
      rw [← idxOf_getD h.nodup hi, immediatelyDominates_index_iff hentry h (getD_mem hi) hyl,
        List.getD_eq_getElem _ _ hyl, Option.some.inj hres] at himm
      exact ⟨(h.mem_iff _).mp (getD_mem hi), fun heq =>
        hi0 (by rw [← idxOf_getD h.nodup hi, heq, idxOf_zero h]), himm⟩
  · rintro ⟨hb, hb0, himm⟩
    have hbm := (h.mem_iff b).mpr hb
    have hzm := (h.mem_iff z).mpr (himm.2.1.reaches hb)
    have hzl := List.idxOf_lt_length_of_mem hzm
    have hbl := List.idxOf_lt_length_of_mem hbm
    refine ⟨blocks.idxOf b, ⟨hbl, getD_idxOf hbm⟩, blocks.idxOf z, ?_, ?_⟩
    · refine (hidom.eq_some_iff fun heq => hb0 ?_).mpr
        ⟨(reaches_index_iff hentry h).mpr hbl, ?_⟩
      · rw [← getD_idxOf hbm, heq, getD_zero h]
      · rw [immediatelyDominates_index_iff hentry h hbm hzl, getD_idxOf hzm]
        exact himm
    · rw [if_pos fun heq => himm.1 (by rw [← getD_idxOf hzm, heq, getD_idxOf hbm]),
        List.getElem?_eq_getElem hzl, List.getElem_idxOf]

/-- With the entry its own the answers are the immediate dominators of all blocks. -/
theorem isIdom_immediateDominator : IsIdom g.Edge 0 fun b =>
    if b = 0 then some 0 else (DominatorTree.mk blocks idoms).immediateDominator b where
  root := if_pos rfl
  isSome_iff b := by
    by_cases hb0 : b = 0
    · rw [if_pos hb0]
      exact iff_of_true rfl (hb0 ▸ ⟨_, .entry⟩)
    · rw [if_neg hb0]
      constructor
      · intro hsome
        obtain ⟨z, hz⟩ := Option.isSome_iff_exists.mp hsome
        exact ((immediateDominator_eq_some_iff hentry h hidom).mp hz).1
      · intro hb
        have hbm := (h.mem_iff b).mpr hb
        have hbl := List.idxOf_lt_length_of_mem hbm
        obtain ⟨z, hz⟩ := Option.isSome_iff_exists.mp
          ((hidom.isSome_iff _).mpr ((reaches_index_iff hentry h).mpr hbl))
        have himm := hidom.immediate _ z hz fun heq =>
          hb0 (by rw [← getD_idxOf hbm, heq, getD_zero h])
        rw [immediatelyDominates_index_iff hentry h hbm (idom_lt hentry h hidom hz).2] at himm
        rw [(immediateDominator_eq_some_iff hentry h hidom).mpr ⟨hb, hb0, himm⟩]
        rfl
  immediate b z hz hb0 := by
    rw [if_neg hb0] at hz
    exact ((immediateDominator_eq_some_iff hentry h hidom).mp hz).2.2

/-- The ancestors of a block in the tree are what dominates it. -/
theorem ancestor_immediateDominator_iff {a b : Nat} (hb : Reaches g.Edge 0 b) :
    Ancestor (DominatorTree.mk blocks idoms).immediateDominator a b ↔ Dominates g.Edge 0 a b := by
  rw [← (isIdom_immediateDominator hentry h hidom).ancestor_iff hb]
  constructor
  · refine Ancestor.of_loops fun x y _ hxy => ?_
    show (if x = 0 then _ else _) = _
    rw [if_neg ((immediateDominator_eq_some_iff hentry h hidom).mp hxy).2.1]
    exact hxy
  · refine Ancestor.of_loops fun x y hne hxy => ?_
    by_cases hx : x = 0
    · rw [if_pos hx] at hxy
      exact absurd (hx.trans (Option.some.inj hxy)) hne
    · rwa [if_neg hx] at hxy

omit hentry hidom in
theorem predecessorIndexes_ne_nil : g.predecessorIndexes blocks ≠ [] := by
  refine List.ne_nil_of_length_pos ?_
  rw [RegionGraph.predecessorIndexes, List.length_map, List.length_range]
  exact length_pos h

end Positions

/-- The tree of a region that has an entry, from some depth of the recursion
    and number of rounds on. -/
theorem exists_dominatorTree {g : RegionGraph} (hentry : g.contains 0) :
    ∃ bound blocks idoms,
      (∀ fuel > bound, g.dominatorTree fuel = some ⟨blocks, idoms⟩) ∧
      ReversePostOrder g.Edge 0 blocks ∧
      IsIdom (IndexEdge (g.predecessorIndexes blocks)) 0 idoms := by
  obtain ⟨blocks, hblocks, horder⟩ := RegionGraph.exists_reachableBlocks hentry
  have hlen : (g.predecessorIndexes blocks).length = blocks.length := by
    rw [RegionGraph.predecessorIndexes, List.length_map, List.length_range]
  have hranked := ranked_positions hentry horder
  rw [← hlen] at hranked
  obtain ⟨rounds, idoms, hrun, hidom⟩ :=
    exists_immediateDominators (predecessorIndexes_ne_nil horder) hranked
  refine ⟨max g.succs.length rounds, blocks, idoms, fun fuel hfuel => ?_, horder, hidom⟩
  rw [RegionGraph.dominatorTree, hblocks fuel (by omega)]
  show Option.map _ (immediateDominators fuel _) = _
  rw [hrun fuel (by omega)]
  rfl

/-- A region without blocks has an empty tree. -/
theorem dominatorTree_of_empty {g : RegionGraph} (hentry : ¬ g.contains 0) :
    ∃ tree : DominatorTree, (∀ fuel, g.dominatorTree fuel = some tree) ∧ tree.blocks = [] := by
  have hnil : g.succs = [] := List.length_eq_zero_iff.mp (Nat.eq_zero_of_not_pos hentry)
  refine ⟨⟨[], fun _ => none⟩, fun fuel => ?_, rfl⟩
  rw [RegionGraph.dominatorTree, RegionGraph.reachableBlocks, if_pos hnil]
  rfl

end Crabbit.Llvm
