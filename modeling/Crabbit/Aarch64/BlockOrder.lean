/-
  Crabbit.Aarch64.BlockOrder

  The order in which instruction selection visits the blocks of a function: the
  reachable ones in reverse post-order, then the others as they lie.

  What dominates a block comes before it, so the definition of a value is seen
  before its uses in the blocks that can be reached.  In the others it is seen
  before a use only if it is in a reachable block, or lies before the use.
-/

import Crabbit.Lib.DepthFirst
import Crabbit.Llvm.RegionCfg

namespace Crabbit.Aarch64

open Crabbit.Lib
open Crabbit.Llvm (RegionCfg)

/-- An edge of a region's graph. -/
def edgeOf (cfg : RegionCfg) (b s : Nat) : Prop := s ∈ cfg.succsOf b

/-- `entry_reverse_post_order`, with fuel for its loop. -/
def entryReversePostOrder (cfg : RegionCfg) (entry fuel : Nat) : Option (List Nat) :=
  depthFirst cfg.succsOf fuel [(entry, 0)] [entry] []

/-- The blocks as selection visits them. -/
def visitOrder (cfg : RegionCfg) (entry fuel : Nat) : Option (List Nat) :=
  (entryReversePostOrder cfg entry fuel).map fun ordered =>
    ordered ++ (List.range cfg.len).filter (· ∉ ordered)

/-- The operations of the blocks in an order, as the block and the position in
    it. -/
def visitedOps (opCount : Nat → Nat) (order : List Nat) : List (Nat × Nat) :=
  order.flatMap fun b => (List.range (opCount b)).map fun i => (b, i)

/-- An operation is visited before another. -/
def SeenBefore (opCount : Nat → Nat) (order : List Nat) (definition use : Nat × Nat) : Prop :=
  ∃ before after, visitedOps opCount order = before ++ use :: after ∧ definition ∈ before

/-- Enough steps for a search of a graph: one for each edge and one for each
    block. -/
def searchSteps (cfg : RegionCfg) : Nat := stepsLeft cfg.succsOf (List.range cfg.len) []

/-- A definition dominates a use: it is earlier in the same block, or in a
    block that dominates the use's. -/
def DominatesUse (cfg : RegionCfg) (entry : Nat) (definition use : Nat × Nat) : Prop :=
  (definition.1 = use.1 ∧ definition.2 < use.2) ∨
    (definition.1 ≠ use.1 ∧ Dominates (edgeOf cfg) entry definition.1 use.1)

theorem exists_entryReversePostOrder (cfg : RegionCfg) {entry : Nat} (hentry : entry < cfg.len) :
    ∃ order, (∀ fuel > searchSteps cfg, entryReversePostOrder cfg entry fuel = some order) ∧
      ReversePostOrder (edgeOf cfg) entry order :=
  exists_reversePostOrder List.nodup_range
    (fun _ _ _ hs => List.mem_range.mpr (cfg.succsOf_lt hs)) (List.mem_range.mpr hentry)

/-- What is visited before an operation: the blocks before its own, and its own
    up to it. -/
theorem visitedOps_split (opCount : Nat → Nat) (before after : List Nat) {b i : Nat}
    (hi : i < opCount b) :
    ∃ rest, visitedOps opCount (before ++ b :: after) =
      (visitedOps opCount before ++ (List.range i).map fun j => (b, j)) ++ (b, i) :: rest := by
  obtain ⟨m, hm⟩ : ∃ m, opCount b = i + 1 + m := ⟨opCount b - (i + 1), by omega⟩
  refine ⟨((List.range m).map (i + 1 + ·)).map (fun j => (b, j)) ++ visitedOps opCount after, ?_⟩
  rw [visitedOps, visitedOps, visitedOps, List.flatMap_append, List.flatMap_cons, hm,
    List.range_add, List.range_succ, List.map_append, List.map_append]
  simp only [List.map_cons, List.map_nil, List.append_assoc, List.cons_append, List.nil_append]

theorem mem_visitedOps {opCount : Nat → Nat} {order : List Nat} {b i : Nat} :
    (b, i) ∈ visitedOps opCount order ↔ b ∈ order ∧ i < opCount b := by
  simp only [visitedOps, List.mem_flatMap, List.mem_map, List.mem_range, Prod.mk.injEq]
  constructor
  · rintro ⟨c, hc, j, hj, rfl, rfl⟩
    exact ⟨hc, hj⟩
  · rintro ⟨hb, hi⟩
    exact ⟨b, hb, i, hi, rfl, rfl⟩

theorem nodup_visitedOps {opCount : Nat → Nat} {order : List Nat} (h : order.Nodup) :
    (visitedOps opCount order).Nodup := by
  refine List.nodup_flatMap.mpr ⟨fun b _ => ?_, h.imp fun {a b} hne x ha hb => hne ?_⟩
  · exact List.nodup_range.map fun i j hij => (Prod.mk.inj hij).2
  · obtain ⟨i, -, rfl⟩ := List.mem_map.mp ha
    obtain ⟨j, -, hj⟩ := List.mem_map.mp hb
    exact (Prod.mk.inj hj).1.symm

/-- Before an operation are those of the blocks before its own, and those before
    it in its own. -/
theorem seenBefore_iff {opCount : Nat → Nat} {before after : List Nat} {b i : Nat}
    (hnodup : (before ++ b :: after).Nodup) (hi : i < opCount b) {definition : Nat × Nat}
    (hdef : definition.2 < opCount definition.1) :
    SeenBefore opCount (before ++ b :: after) definition (b, i) ↔
      definition.1 ∈ before ∨ (definition.1 = b ∧ definition.2 < i) := by
  obtain ⟨rest, hops⟩ := visitedOps_split opCount before after hi
  have hmem : definition ∈ visitedOps opCount before ++ (List.range i).map (fun j => (b, j)) ↔
      definition.1 ∈ before ∨ (definition.1 = b ∧ definition.2 < i) := by
    obtain ⟨c, j⟩ := definition
    simp only [List.mem_append, mem_visitedOps, List.mem_map, List.mem_range, Prod.mk.injEq]
    constructor
    · rintro (⟨hc, -⟩ | ⟨j, hj, rfl, rfl⟩)
      · exact Or.inl hc
      · exact Or.inr ⟨rfl, hj⟩
    · rintro (hc | ⟨rfl, hj⟩)
      · exact Or.inl ⟨hc, hdef⟩
      · exact Or.inr ⟨j, hj, rfl, rfl⟩
  rw [← hmem]
  constructor
  · rintro ⟨seen, later, heq, hseen⟩
    -- Each operation is visited once, so there is one way to split the visits at it.
    have hvisits : (visitedOps opCount (before ++ b :: after)).Nodup :=
      nodup_visitedOps hnodup
    have hlater : (b, i) ∉ seen ∧ (b, i) ∉ later := by
      rw [heq] at hvisits
      have hmiddle := List.nodup_cons.mp (List.nodup_middle.mp hvisits)
      exact not_or.mp fun h => hmiddle.1 (List.mem_append.mpr h)
    rw [heq] at hops
    rw [← ((List.append_cons_inj_of_notMem hlater.1 hlater.2).mp hops).1]
    exact hseen
  · exact fun h => ⟨_, rest, hops, h⟩

section Order

variable {cfg : RegionCfg} {entry : Nat} {order : List Nat}
  (h : ReversePostOrder (edgeOf cfg) entry order)
include h

theorem nodup_visitOrder : (order ++ (List.range cfg.len).filter (· ∉ order)).Nodup := by
  refine List.nodup_append.mpr ⟨h.nodup, List.nodup_range.filter _, fun a ha b hb hab => ?_⟩
  exact of_decide_eq_true (List.mem_filter.mp hb).2 (hab ▸ ha)

/-- In an order that puts dominators first, a definition is visited before every
    use in a reachable block. -/
theorem seenBefore_of_dominatesUse {opCount : Nat → Nat} {definition use : Nat × Nat}
    (hdef : definition.2 < opCount definition.1) (huse : use.2 < opCount use.1)
    (hreach : Reaches (edgeOf cfg) entry use.1) (hdom : DominatesUse cfg entry definition use) :
    SeenBefore opCount (order ++ (List.range cfg.len).filter (· ∉ order)) definition use := by
  obtain ⟨before, after, hsplit⟩ := List.append_of_mem ((h.mem_iff use.1).mpr hreach)
  have horder : order ++ (List.range cfg.len).filter (· ∉ order) =
      before ++ use.1 :: (after ++ (List.range cfg.len).filter (· ∉ order)) := by
    rw [← List.cons_append, ← List.append_assoc, ← hsplit]
  have hnodup := nodup_visitOrder h
  rw [horder] at hnodup ⊢
  refine (seenBefore_iff hnodup huse hdef).mpr (hdom.symm.imp ?_ id)
  rintro ⟨hne, hdom⟩
  -- The dominator is among the blocks before.
  have hmem := (h.mem_iff definition.1).mpr (hdom.reaches hreach)
  have hpair := h.dominators
  rw [hsplit] at hmem hpair
  rcases List.mem_append.mp hmem with hmem | hmem
  · exact hmem
  · rcases List.mem_cons.mp hmem with heq | hmem
    · exact absurd heq hne
    · have hrest := (List.pairwise_append.mp hpair).2.1
      exact absurd hdom ((List.pairwise_cons.mp hrest).1 _ hmem)

/-- Before a use in a block that is not reached come the reachable blocks, and
    what lies before the use. -/
theorem seenBefore_unreached_iff {opCount : Nat → Nat} {definition use : Nat × Nat}
    (hdef : definition.2 < opCount definition.1) (huse : use.2 < opCount use.1)
    (hlt : use.1 < cfg.len) (hunreached : ¬ Reaches (edgeOf cfg) entry use.1) :
    SeenBefore opCount (order ++ (List.range cfg.len).filter (· ∉ order)) definition use ↔
      Reaches (edgeOf cfg) entry definition.1 ∨ definition.1 < use.1 ∨
        (definition.1 = use.1 ∧ definition.2 < use.2) := by
  have hnotMem : use.1 ∉ order := fun hmem => hunreached ((h.mem_iff use.1).mp hmem)
  obtain ⟨n, hn⟩ : ∃ n, cfg.len = use.1 + 1 + n := ⟨cfg.len - (use.1 + 1), by omega⟩
  -- The others lie in the order of their indices.
  have horder : order ++ (List.range cfg.len).filter (· ∉ order) =
      (order ++ (List.range use.1).filter (· ∉ order)) ++
        use.1 :: ((List.range n).map (use.1 + 1 + ·)).filter (· ∉ order) := by
    have hkept : [use.1].filter (· ∉ order) = [use.1] := by simp [hnotMem]
    rw [hn, List.range_add, List.range_succ, List.filter_append, List.filter_append, hkept]
    simp only [List.append_assoc, List.cons_append, List.nil_append]
  have hnodup := nodup_visitOrder h
  rw [horder] at hnodup ⊢
  rw [seenBefore_iff hnodup huse hdef, List.mem_append, List.mem_filter, List.mem_range,
    decide_eq_true_eq, h.mem_iff, or_assoc]
  constructor
  · exact Or.imp_right (Or.imp_left And.left)
  · rintro (hreaches | hbefore)
    · exact Or.inl hreaches
    · by_cases hreaches : Reaches (edgeOf cfg) entry definition.1
      · exact Or.inl hreaches
      · exact Or.inr (hbefore.imp_left fun hlt => ⟨hlt, hreaches⟩)

end Order

/-- The search of any graph from any entry ends.  It lists the reachable blocks
    once each, the entry first and every block after those that dominate it.
    Selection, which visits them in this order and then the others as they lie,
    sees a definition before its uses in reachable blocks; before a use in
    another block just if the definition is in a reachable block or lies
    before. -/
theorem entryReversePostOrder_exact (cfg : RegionCfg) (entry : Fin cfg.len) :
    ∃ order visited,
      (∀ fuel > searchSteps cfg, entryReversePostOrder cfg entry fuel = some order ∧
        visitOrder cfg entry fuel = some visited) ∧
      order.Nodup ∧ order.head? = some entry.val ∧
      (∀ b, b ∈ order ↔ Reaches (edgeOf cfg) entry b) ∧
      (∀ a b, Reaches (edgeOf cfg) entry b → Dominates (edgeOf cfg) entry a b → a ≠ b →
        order.idxOf a < order.idxOf b) ∧
      ∀ (opCount : Nat → Nat) (definition use : Nat × Nat),
        definition.2 < opCount definition.1 → use.2 < opCount use.1 → use.1 < cfg.len →
        (Reaches (edgeOf cfg) entry use.1 → DominatesUse cfg entry definition use →
          SeenBefore opCount visited definition use) ∧
        (¬ Reaches (edgeOf cfg) entry use.1 →
          (SeenBefore opCount visited definition use ↔
            Reaches (edgeOf cfg) entry definition.1 ∨ definition.1 < use.1 ∨
              (definition.1 = use.1 ∧ definition.2 < use.2))) := by
  obtain ⟨order, hrun, hrpo⟩ := exists_entryReversePostOrder cfg entry.isLt
  refine ⟨order, order ++ (List.range cfg.len).filter (· ∉ order), fun fuel hfuel => ?_,
    hrpo.nodup, hrpo.head_eq, hrpo.mem_iff, fun _ _ hb hdom hne => hrpo.idxOf_lt hb hdom hne,
    fun opCount definition use hdef huse hlt => ?_⟩
  · have hsome := hrun fuel hfuel
    exact ⟨hsome, by rw [visitOrder, hsome, Option.map_some]⟩
  · exact ⟨fun hreach hdom => seenBefore_of_dominatesUse hrpo hdef huse hreach hdom,
      fun hunreached => seenBefore_unreached_iff hrpo hdef huse hlt hunreached⟩

/-- A block that is not reached, and behind it the only one that leads there. -/
def backwardsCfg : RegionCfg := ⟨[[], [], [1]], by decide⟩

/-- The use of a value is visited before its definition, which comes first on
    every path to it. -/
theorem backwardsCfg_use_first :
    (∀ u, edgeOf backwardsCfg u 1 → u = 2) ∧ DominatesUse backwardsCfg 0 (2, 0) (1, 0) ∧
      (∀ fuel > searchSteps backwardsCfg, visitOrder backwardsCfg 0 fuel = some [0, 1, 2]) ∧
      ¬ SeenBefore (fun _ => 1) [0, 1, 2] (2, 0) (1, 0) := by
  have hedge : ∀ u, edgeOf backwardsCfg u 1 → u = 2 := by
    intro u hu
    obtain rfl | rfl | rfl | hu' : u = 0 ∨ u = 1 ∨ u = 2 ∨ 3 ≤ u := by omega
    · exact absurd hu List.not_mem_nil
    · exact absurd hu List.not_mem_nil
    · rfl
    · rw [edgeOf, RegionCfg.succsOf, List.getD_eq_default _ _ hu'] at hu
      exact absurd hu List.not_mem_nil
  refine ⟨hedge, Or.inr ⟨by decide, dominates_of_pred (by decide) hedge⟩, fun fuel hfuel => ?_, ?_⟩
  · obtain ⟨order, hrun, -⟩ :=
      exists_entryReversePostOrder backwardsCfg (show 0 < backwardsCfg.len by decide)
    have horder : entryReversePostOrder backwardsCfg 0 (searchSteps backwardsCfg + 1) =
        some [0] := by decide
    obtain rfl := Option.some.inj ((hrun _ (Nat.lt_succ_self _)).symm.trans horder)
    rw [visitOrder, hrun fuel hfuel]
    decide
  · rw [show [0, 1, 2] = [0] ++ 1 :: [2] from rfl,
      seenBefore_iff (by decide) Nat.zero_lt_one Nat.zero_lt_one]
    decide

/-- A loop, a shared successor and a block that is not reachable: the reachable
    blocks come first. -/
example : visitOrder ⟨[[1, 2], [3], [3], [1], [3]], by decide⟩ 0 20 = some [0, 2, 1, 3, 4] := by
  decide

end Crabbit.Aarch64
