/-
  Crabbit.Llvm.NaturalLoops

  What the loop passes ask of a region (`passes/llvm/analysis.rs`): the nearest
  common dominator of several blocks, the natural loops, and the preheader of a
  loop.  The dominator tree and the predecessor lists are the framework's: what
  they answer is a parameter, with what is documented of them as assumptions.
-/

import Crabbit.Lib.IdomTree
import Crabbit.Lib.Worklist

namespace Crabbit.Llvm

open Crabbit.Lib

/-! ## Regions -/

/-- A region as the analyses read it: `succs` and `preds` of its blocks, and
    the queries on its `RegionDomTree`. -/
structure LoopRegion (V : Type) where
  blocks : List V
  succs : V → List V
  preds : V → List V
  nodes : List V
  contains : V → Bool
  dominates : V → V → Bool
  idom : V → Option V

namespace LoopRegion

variable {V : Type} (g : LoopRegion V)

def Edge (u v : V) : Prop := v ∈ g.succs u

/-- What is documented of the framework: the tree holds the blocks that can be
    reached, and the root has no immediate dominator. -/
structure Documented (entry : V) : Prop where
  nodup : g.blocks.Nodup
  preds_iff : ∀ u b, u ∈ g.preds b ↔ g.Edge u b
  preds_blocks : ∀ b, ∀ u ∈ g.preds b, u ∈ g.blocks
  nodes_iff : ∀ b, b ∈ g.nodes ↔ Reaches g.Edge entry b
  contains_iff : ∀ b, g.contains b = true ↔ Reaches g.Edge entry b
  dominates_iff : ∀ a b, Reaches g.Edge entry a → Reaches g.Edge entry b →
    (g.dominates a b = true ↔ Dominates g.Edge entry a b)
  idom_of_ne : ∀ b, Reaches g.Edge entry b → b ≠ entry →
    ∃ z, g.idom b = some z ∧ ImmediatelyDominates g.Edge entry z b

/-! ## The nearest common dominator -/

/-- `while !dom.dominates(&cur, block) { cur = dom.idom(&cur)?; }` -/
def climbTo (block : V) : Nat → V → Option (Option V)
  | 0, _ => none
  | fuel + 1, cur =>
    if g.dominates cur block then some (some cur)
    else
      match g.idom cur with
      | none => some none
      | some next => climbTo block fuel next

/-- The loop over the blocks after the first. -/
def commonDominatorFrom (fuel : Nat) : V → List V → Option (Option V)
  | cur, [] => some (some cur)
  | cur, block :: rest =>
    if g.contains block = false then some none
    else
      match g.climbTo block fuel cur with
      | none => none
      | some none => some none
      | some (some next) => commonDominatorFrom fuel next rest

/-- `nearest_common_dominator`; `none` when the fuel runs out. -/
def nearestCommonDominator (fuel : Nat) : List V → Option (Option V)
  | [] => some none
  | cur :: rest =>
    if g.contains cur = false then some none else g.commonDominatorFrom fuel cur rest

/-! ## Loops -/

/-- `by_header.iter_mut().find(..)`: a latch joins those of its header. -/
def addLatch [DecidableEq V] (header latch : V) : List (V × List V) → List (V × List V)
  | [] => [(header, [latch])]
  | (other, latches) :: rest =>
    if other = header then (other, latches ++ [latch]) :: rest
    else (other, latches) :: addLatch header latch rest

/-- The edges `latch → header` whose header dominates the latch, in the order
    they are found. -/
def backEdges : List (V × V) :=
  g.nodes.flatMap fun block =>
    ((g.succs block).filter fun succ => g.contains succ && g.dominates succ block).map
      fun succ => (block, succ)

def byHeader [DecidableEq V] : List (V × List V) :=
  g.backEdges.foldl (fun found edge => addLatch edge.2 edge.1 found) []

/-- `NaturalLoop`; the body is a set. -/
structure NaturalLoop (V : Type) where
  header : V
  latches : List V
  body : List V

/-- The reverse flood from the latches, up to the header. -/
def naturalLoop [DecidableEq V] (fuel : Nat) (header : V) (latches : List V) :
    Option (NaturalLoop V) :=
  -- The source pops its latches from the end; the header is seen from the start.
  match flood (fun block => some (g.preds block)) fuel latches.reverse [header] with
  | .finished body => some ⟨header, latches, body⟩
  | _ => none

/-- `natural_loops`, innermost first; `none` when the fuel runs out. -/
def naturalLoops [DecidableEq V] (fuel : Nat) : Option (List (NaturalLoop V)) :=
  (g.byHeader.mapM fun found => g.naturalLoop fuel found.1 found.2).map fun loops =>
    loops.mergeSort fun a b => a.body.length ≤ b.body.length

/-- `NaturalLoop::preheader` -/
def preheader [DecidableEq V] (l : NaturalLoop V) : Option V :=
  match (g.preds l.header).filter (· ∉ l.body) with
  | [single] => if (g.succs single).length = 1 then some single else none
  | _ => none

/-! ## A region with a loop -/

/-- An entry that leads to a block that loops. -/
def spin : LoopRegion Bool where
  blocks := [false, true]
  succs _ := [true]
  preds b := if b then [false, true] else []
  nodes := [false, true]
  contains _ := true
  dominates a b := !a || b
  idom b := if b then some false else none

theorem reaches_spin (b : Bool) : Reaches spin.Edge false b := by
  have hentry : Reaches spin.Edge false false := ⟨_, .entry⟩
  cases b with
  | false => exact hentry
  | true => exact hentry.step List.mem_cons_self

theorem documented_spin : spin.Documented false where
  nodup := by decide
  preds_iff u b := by cases u <;> cases b <;> simp [spin, Edge]
  preds_blocks b u _ := by cases u <;> simp [spin]
  nodes_iff b := iff_of_true (by cases b <;> simp [spin]) (reaches_spin b)
  contains_iff b := iff_of_true rfl (reaches_spin b)
  dominates_iff a b _ _ := by
    cases a with
    | false => exact iff_of_true rfl (entry_dominates b)
    | true =>
      cases b with
      | false =>
        exact iff_of_false Bool.false_ne_true fun h => absurd h.eq_entry.symm Bool.false_ne_true
      | true => exact iff_of_true rfl (.refl _)
  idom_of_ne b _ hne := by
    cases b with
    | false => exact absurd rfl hne
    | true =>
      refine ⟨false, rfl, Bool.false_ne_true, entry_dominates _, fun d hd _ => ?_⟩
      cases d with
      | false => exact .refl _
      | true => exact absurd rfl hd

/-! ## What common dominators are -/

variable {g}

/-- A common dominator that every other one dominates. -/
def NearestCommon (g : LoopRegion V) (entry : V) (blocks : List V) (d : V) : Prop :=
  (∀ b ∈ blocks, Dominates g.Edge entry d b) ∧
    ∀ z, (∀ b ∈ blocks, Dominates g.Edge entry z b) → Dominates g.Edge entry z d

section CommonDominator

variable {entry : V} (hg : g.Documented entry) {fuel : Nat}
include hg

/-- The climb ends, at the nearest block above that dominates the other too;
    walks from the entry only get shorter on the way. -/
theorem exists_climbTo {cur block : V} {visited : List V} (hwalk : Walk g.Edge entry cur visited)
    (hblock : Reaches g.Edge entry block) (hfuel : visited.length < fuel) :
    ∃ d before, g.climbTo block fuel cur = some (some d) ∧ Walk g.Edge entry d before ∧
      before.length ≤ visited.length ∧ Dominates g.Edge entry d cur ∧
      Dominates g.Edge entry d block ∧
      ∀ z, Dominates g.Edge entry z cur → Dominates g.Edge entry z block →
        Dominates g.Edge entry z d := by
  induction fuel generalizing cur visited with
  | zero => omega
  | succ fuel ih =>
    have hiff := hg.dominates_iff cur block ⟨_, hwalk⟩ hblock
    rw [climbTo]
    by_cases h : g.dominates cur block = true
    · exact ⟨cur, visited, if_pos h, hwalk, Nat.le_refl _, .refl _, hiff.mp h, fun z hz _ => hz⟩
    · -- The entry dominates every block, so the climb has not come to it.
      have hne : cur ≠ entry := by
        rintro rfl
        exact h (hiff.mpr (entry_dominates block))
      obtain ⟨next, hnext, hnv, hdom, hall⟩ := hg.idom_of_ne cur ⟨_, hwalk⟩ hne
      obtain ⟨before, hbefore, -, -, hlt⟩ := hwalk.visit (hdom visited hwalk)
      have hshort := hlt hnv
      obtain ⟨d, walk, hclimb, hd, hle, hdn, hdb, hnearest⟩ := ih hbefore (by omega)
      refine ⟨d, walk, ?_, hd, by omega, hdn.trans hdom, hdb, fun z hz hzb => ?_⟩
      · rw [if_neg h, hnext]
        exact hclimb
      · -- What dominates the other block is not the block climbed from.
        apply hnearest z (hall z ?_ hz) hzb
        rintro rfl
        exact h (hiff.mpr hzb)

theorem exists_commonDominatorFrom {rest : List V}
    (hrest : ∀ b ∈ rest, Reaches g.Edge entry b) {cur : V} {visited : List V}
    (hwalk : Walk g.Edge entry cur visited) (hfuel : visited.length < fuel) :
    ∃ d, g.commonDominatorFrom fuel cur rest = some (some d) ∧
      g.NearestCommon entry (cur :: rest) d := by
  induction rest generalizing cur visited with
  | nil =>
    refine ⟨cur, rfl, ?_, fun z hz => hz cur List.mem_cons_self⟩
    intro b hb
    rw [List.mem_singleton.mp hb]
    exact .refl _
  | cons block rest ih =>
    obtain ⟨hblock, hrest⟩ := List.forall_mem_cons.mp hrest
    obtain ⟨next, before, hclimb, hbefore, hle, hcur, hnb, hnearest⟩ :=
      exists_climbTo hg hwalk hblock hfuel
    obtain ⟨d, hd, hall, hleast⟩ := ih hrest hbefore (by omega)
    obtain ⟨hnext, hothers⟩ := List.forall_mem_cons.mp hall
    refine ⟨d, ?_, ?_, fun z hz => ?_⟩
    · rw [commonDominatorFrom, (hg.contains_iff block).mpr hblock, if_neg Bool.true_eq_false.mp,
        hclimb]
      exact hd
    · exact List.forall_mem_cons.mpr
        ⟨hnext.trans hcur, List.forall_mem_cons.mpr ⟨hnext.trans hnb, hothers⟩⟩
    · obtain ⟨hzcur, hz⟩ := List.forall_mem_cons.mp hz
      obtain ⟨hzblock, hz⟩ := List.forall_mem_cons.mp hz
      exact hleast z (List.forall_mem_cons.mpr ⟨hnearest z hzcur hzblock, hz⟩)

theorem commonDominatorFrom_unreached {rest : List V} {b : V} (hb : b ∈ rest)
    (hunreached : ¬ Reaches g.Edge entry b) {cur : V} {visited : List V}
    (hwalk : Walk g.Edge entry cur visited) (hfuel : visited.length < fuel) :
    g.commonDominatorFrom fuel cur rest = some none := by
  induction rest generalizing cur visited with
  | nil => exact absurd hb List.not_mem_nil
  | cons block rest ih =>
    rw [commonDominatorFrom]
    by_cases hblock : g.contains block = true
    · have hreaches := (hg.contains_iff block).mp hblock
      obtain ⟨next, before, hclimb, hbefore, hle, -⟩ := exists_climbTo hg hwalk hreaches hfuel
      rw [hblock, if_neg Bool.true_eq_false.mp, hclimb]
      rcases List.mem_cons.mp hb with rfl | hb
      · exact absurd hreaches hunreached
      · exact ih hb hbefore (by omega)
    · rw [Bool.eq_false_iff.mpr hblock, if_pos rfl]

/-- The nearest common dominator is found, exactly when there are blocks and
    all of them can be reached. -/
theorem nearestCommonDominator_exact (blocks : List V) :
    ∃ n, ∀ fuel ≥ n, ∃ r, g.nearestCommonDominator fuel blocks = some r ∧
      ∀ d, r = some d ↔ blocks ≠ [] ∧ (∀ b ∈ blocks, Reaches g.Edge entry b) ∧
        g.NearestCommon entry blocks d := by
  cases blocks with
  | nil =>
    exact ⟨0, fun fuel _ => ⟨none, rfl, fun d => ⟨fun h => absurd h.symm (Option.some_ne_none d),
      fun h => absurd rfl h.1⟩⟩⟩
  | cons cur rest =>
    by_cases hcur : Reaches g.Edge entry cur
    · obtain ⟨visited, hwalk⟩ := hcur
      refine ⟨visited.length + 1, fun fuel hfuel => ?_⟩
      rw [nearestCommonDominator, (hg.contains_iff cur).mpr ⟨_, hwalk⟩,
        if_neg Bool.true_eq_false.mp]
      by_cases hrest : ∀ b ∈ rest, Reaches g.Edge entry b
      · obtain ⟨found, hfound, hall, hleast⟩ :=
          exists_commonDominatorFrom hg hrest hwalk (Nat.lt_of_succ_le hfuel)
        refine ⟨some found, hfound, fun d => ⟨?_, ?_⟩⟩
        · rintro ⟨⟩
          exact ⟨List.cons_ne_nil _ _, List.forall_mem_cons.mpr ⟨⟨_, hwalk⟩, hrest⟩, hall, hleast⟩
        · rintro ⟨-, -, hdall, hdleast⟩
          have hd : Reaches g.Edge entry d := (hdall cur List.mem_cons_self).reaches ⟨_, hwalk⟩
          exact congrArg some ((hdleast found hall).antisymm (hleast d hdall) hd)
      · -- The tree does not hold one of the blocks, and the source gives up at it.
        obtain ⟨b, hb, hunreached⟩ := not_forall₂.mp hrest
        refine ⟨none, commonDominatorFrom_unreached hg hb hunreached hwalk (by omega), fun d => ?_⟩
        exact ⟨fun h => absurd h.symm (Option.some_ne_none d),
          fun h => absurd (h.2.1 b (List.mem_cons_of_mem _ hb)) hunreached⟩
    · refine ⟨0, fun fuel _ => ⟨none, ?_, fun d =>
        ⟨fun h => absurd h.symm (Option.some_ne_none d),
          fun h => absurd (h.2.1 cur List.mem_cons_self) hcur⟩⟩⟩
      rw [nearestCommonDominator,
        Bool.eq_false_iff.mpr fun h => hcur ((hg.contains_iff cur).mp h), if_pos rfl]

end CommonDominator

theorem nearestCommonDominator_spin :
    ∃ n, ∀ fuel ≥ n, ∃ r, spin.nearestCommonDominator fuel [true, false] = some r ∧
      ∀ d, r = some d ↔ [true, false] ≠ [] ∧
        (∀ b ∈ [true, false], Reaches spin.Edge false b) ∧
        spin.NearestCommon false [true, false] d :=
  nearestCommonDominator_exact documented_spin [true, false]

/-! ## The loops of a region -/

/-- An edge to a block that dominates where it comes from. -/
def BackEdge (g : LoopRegion V) (entry u h : V) : Prop :=
  Reaches g.Edge entry u ∧ g.Edge u h ∧ Dominates g.Edge entry h u

/-- A loop as it is meant: all back edges to the header, and in the body the
    header and what leads to a latch without passing the header. -/
structure NaturalLoop.Of (l : NaturalLoop V) (g : LoopRegion V) (entry : V) : Prop where
  latches : ∀ u, u ∈ l.latches ↔ g.BackEdge entry u l.header
  body : ∀ b, b ∈ l.body ↔ b = l.header ∨ ∃ u ∈ l.latches,
    Relation.ReflTransGen (fun u v => g.Edge u v ∧ v ≠ l.header) b u
  nodup : l.body.Nodup

/-- The latches found so far are those of the edges, one entry for each header. -/
structure Grouped (edges : List (V × V)) (found : List (V × List V)) : Prop where
  nodup : (found.map Prod.fst).Nodup
  headers : ∀ h, h ∈ found.map Prod.fst ↔ ∃ u, (u, h) ∈ edges
  latches : ∀ h latches, (h, latches) ∈ found → ∀ u, u ∈ latches ↔ (u, h) ∈ edges

section Grouping

variable [DecidableEq V] {header latch : V}

theorem map_fst_addLatch (found : List (V × List V)) :
    (addLatch header latch found).map Prod.fst =
      if header ∈ found.map Prod.fst then found.map Prod.fst
      else found.map Prod.fst ++ [header] := by
  induction found with
  | nil => rfl
  | cons entry found ih =>
    obtain ⟨other, latches⟩ := entry
    rw [addLatch]
    by_cases h : other = header
    · rw [if_pos h, if_pos (by rw [h]; exact List.mem_cons_self)]
      rfl
    · -- The search goes on behind the entry of another header.
      have hiff : header ∈ ((other, latches) :: found).map Prod.fst ↔
          header ∈ found.map Prod.fst := by
        rw [List.map_cons, List.mem_cons, or_iff_right (Ne.symm h)]
      rw [if_neg h, List.map_cons, ih]
      by_cases hmem : header ∈ found.map Prod.fst
      · rw [if_pos hmem, if_pos (hiff.mpr hmem)]
        rfl
      · rw [if_neg hmem, if_neg (hiff.not.mpr hmem)]
        rfl

theorem of_mem_addLatch {found : List (V × List V)} (hnodup : (found.map Prod.fst).Nodup)
    {h : V} {latches : List V} (hmem : (h, latches) ∈ addLatch header latch found) :
    h ≠ header ∧ (h, latches) ∈ found ∨
      h = header ∧ ∃ old, latches = old ++ [latch] ∧
        ((header, old) ∈ found ∨ old = [] ∧ header ∉ found.map Prod.fst) := by
  induction found with
  | nil =>
    obtain ⟨rfl, rfl⟩ := Prod.mk.inj (List.mem_singleton.mp hmem)
    exact Or.inr ⟨rfl, [], rfl, Or.inr ⟨rfl, List.not_mem_nil⟩⟩
  | cons entry found ih =>
    obtain ⟨other, others⟩ := entry
    obtain ⟨hother, hnodup⟩ := List.nodup_cons.mp hnodup
    rw [addLatch] at hmem
    by_cases heq : other = header
    · rw [if_pos heq] at hmem
      rcases List.mem_cons.mp hmem with hhead | hmem
      · obtain ⟨rfl, rfl⟩ := Prod.mk.inj hhead
        exact Or.inr ⟨heq, others, rfl, Or.inl (by rw [← heq]; exact List.mem_cons_self)⟩
      · -- No entry behind the header's own is of the header again.
        have hin : h ∈ found.map Prod.fst := List.mem_map_of_mem hmem
        refine Or.inl ⟨fun hheader => hother ?_, List.mem_cons_of_mem _ hmem⟩
        rw [heq, ← hheader]
        exact hin
    · rw [if_neg heq] at hmem
      rcases List.mem_cons.mp hmem with hhead | hmem
      · obtain ⟨rfl, rfl⟩ := Prod.mk.inj hhead
        exact Or.inl ⟨heq, List.mem_cons_self⟩
      · rcases ih hnodup hmem with ⟨hne, hmem⟩ | ⟨rfl, old, rfl, hold⟩
        · exact Or.inl ⟨hne, List.mem_cons_of_mem _ hmem⟩
        · refine Or.inr ⟨rfl, old, rfl, hold.imp (List.mem_cons_of_mem _) fun hnew => ?_⟩
          refine ⟨hnew.1, ?_⟩
          rw [List.map_cons, List.mem_cons, not_or]
          exact ⟨Ne.symm heq, hnew.2⟩

/-- One more edge. -/
theorem Grouped.add {edges : List (V × V)} {found : List (V × List V)} (hg : Grouped edges found)
    (edge : V × V) : Grouped (edges ++ [edge]) (addLatch edge.2 edge.1 found) := by
  obtain ⟨latch, header⟩ := edge
  have hedge : ∀ u h, (u, h) ∈ edges ++ [(latch, header)] ↔
      (u, h) ∈ edges ∨ u = latch ∧ h = header := by
    intro u h
    rw [List.mem_append, List.mem_singleton, Prod.mk.injEq]
  refine ⟨?_, fun h => ?_, fun h latches hmem u => ?_⟩
  · rw [map_fst_addLatch]
    split
    · exact hg.nodup
    · next hnew => exact (List.nodup_append_comm.mp (List.nodup_cons.mpr ⟨hnew, hg.nodup⟩))
  · have hmap : h ∈ (addLatch header latch found).map Prod.fst ↔
        h ∈ found.map Prod.fst ∨ h = header := by
      rw [map_fst_addLatch]
      split
      · next hold => exact ⟨Or.inl, fun hor => hor.elim id fun heq => heq ▸ hold⟩
      · rw [List.mem_append, List.mem_singleton]
    rw [hmap, hg.headers]
    simp only [hedge, exists_or, exists_eq_left]
  · rw [hedge]
    rcases of_mem_addLatch hg.nodup hmem with ⟨hne, hmem⟩ | ⟨rfl, old, rfl, hold⟩
    · rw [hg.latches h latches hmem, or_iff_left fun heq => hne heq.2]
    · rw [List.mem_append, List.mem_singleton, and_iff_left rfl]
      apply or_congr_left
      rcases hold with hmem | ⟨rfl, hnew⟩
      · exact hg.latches h old hmem u
      · refine iff_of_false List.not_mem_nil fun hin => hnew ?_
        exact (hg.headers h).mpr ⟨u, hin⟩

theorem grouped_byHeader : Grouped g.backEdges g.byHeader := by
  -- By induction on the edges to come, for any that are grouped already.
  have hfold : ∀ (todo done : List (V × V)) (found : List (V × List V)), Grouped done found →
      Grouped (done ++ todo)
        (todo.foldl (fun found edge => addLatch edge.2 edge.1 found) found) := by
    intro todo
    induction todo with
    | nil =>
      intro done found h
      rw [List.append_nil]
      exact h
    | cons edge todo ih =>
      intro done found h
      rw [List.append_cons]
      exact ih _ _ (h.add edge)
  exact hfold g.backEdges [] [] ⟨List.nodup_nil, by simp, by simp⟩

end Grouping

section Loops

variable {entry : V} (hg : g.Documented entry)
include hg

theorem mem_backEdges (u h : V) : (u, h) ∈ g.backEdges ↔ g.BackEdge entry u h := by
  simp only [backEdges, List.mem_flatMap, List.mem_map, List.mem_filter, Bool.and_eq_true,
    Prod.mk.injEq]
  constructor
  · rintro ⟨u, hu, h, ⟨hedge, hcontains, hdom⟩, rfl, rfl⟩
    have hreaches := (hg.nodes_iff u).mp hu
    exact ⟨hreaches, hedge,
      (hg.dominates_iff h u ((hg.contains_iff h).mp hcontains) hreaches).mp hdom⟩
  · rintro ⟨hreaches, hedge, hdom⟩
    have hh : Reaches g.Edge entry h := hreaches.step hedge
    exact ⟨u, (hg.nodes_iff u).mpr hreaches, h, ⟨hedge, (hg.contains_iff h).mpr hh,
      (hg.dominates_iff h u hh hreaches).mpr hdom⟩, rfl, rfl⟩

variable [DecidableEq V]

/-- The flood from the latches stops at the header, and finds the rest of the
    body. -/
theorem of_naturalLoop {fuel : Nat} {header : V} {latches : List V} {l : NaturalLoop V}
    (hl : g.naturalLoop fuel header latches = some l)
    (hlatches : ∀ u, u ∈ latches ↔ g.BackEdge entry u header) :
    l.header = header ∧ l.Of g entry := by
  unfold naturalLoop at hl
  split at hl
  · next body hflood =>
    obtain rfl := Option.some.inj hl
    refine ⟨rfl, hlatches, fun b => ?_, flood_nodup hflood (List.nodup_singleton header)⟩
    -- The header is seen already, so its predecessors are never pushed.
    have hcongr : flood (fun b => some (if b = header then [] else g.preds b)) fuel
        latches.reverse [header] = .finished body := by
      rw [← hflood]
      refine flood_congr fun x hx => ?_
      rw [if_neg fun h => hx (List.mem_singleton.mpr h)]
    constructor
    · refine flood_invariant (p := fun b => b = header ∨ ∃ u ∈ latches,
        Relation.ReflTransGen (fun u v => g.Edge u v ∧ v ≠ header) b u) ?_ hcongr ?_ ?_ b
      · rintro x next hx hnext y hy
        by_cases hxh : x = header
        · rw [if_pos hxh] at hnext
          rw [← Option.some.inj hnext] at hy
          exact absurd hy List.not_mem_nil
        · rw [if_neg hxh] at hnext
          rw [← Option.some.inj hnext] at hy
          obtain ⟨u, hu, hpath⟩ := hx.resolve_left hxh
          exact Or.inr ⟨u, hu, .head ⟨(hg.preds_iff y x).mp hy, hxh⟩ hpath⟩
      · exact fun u hu => Or.inr ⟨u, List.mem_reverse.mp hu, .refl⟩
      · exact fun x hx => Or.inl (List.mem_singleton.mp hx)
    · obtain ⟨hheader, hstack, hclosed⟩ := flood_closed hcongr (by
        intro x hx
        rw [List.mem_singleton.mp hx]
        exact ⟨[], by rw [if_pos rfl], fun y hy => absurd hy List.not_mem_nil⟩)
      rintro (rfl | ⟨u, hu, hpath⟩)
      · exact hheader _ (List.mem_singleton.mpr rfl)
      · induction hpath using Relation.ReflTransGen.head_induction_on with
        | refl => exact hstack u (List.mem_reverse.mpr hu)
        | @head b c hstep _ ih =>
          obtain ⟨next, hnext, hmem⟩ := hclosed c ih
          rw [if_neg hstep.2] at hnext
          rw [← Option.some.inj hnext] at hmem
          exact hmem b ((hg.preds_iff b c).mpr hstep.1)
  · cases hl

/-- With fuel for every edge the flood ends. -/
theorem exists_naturalLoop (header : V) (latches : List V)
    (hlatches : ∀ u, u ∈ latches → g.BackEdge entry u header) :
    ∃ n, ∀ fuel ≥ n, ∃ l, g.naturalLoop fuel header latches = some l := by
  refine ⟨latches.length + pushes (fun block => some (g.preds block)) g.blocks [header] + 1,
    fun fuel hfuel => ?_⟩
  -- Each block but the header pushes its predecessors once.
  have hfinite := @flood_ne_outOfFuel V _ (fun block => some (g.preds block)) g.blocks hg.nodup
    (by rintro x - next hnext y hy
        rw [← Option.some.inj hnext] at hy
        exact hg.preds_blocks x y hy) fuel latches.reverse [header]
    (fun u hu => hg.preds_blocks header u
      ((hg.preds_iff u header).mpr (hlatches u (List.mem_reverse.mp hu)).2.1))
    (by rw [List.length_reverse]; omega)
  have hkept := @flood_ne_aborted V _ (fun block => some (g.preds block))
    (fun x => Option.some_ne_none _) fuel latches.reverse [header]
  unfold naturalLoop
  cases hflood : flood (fun block => some (g.preds block)) fuel latches.reverse [header] with
  | outOfFuel => exact absurd hflood hfinite
  | aborted => exact absurd hflood hkept
  | finished body => exact ⟨_, rfl⟩

/-- The loops before they are sorted. -/
theorem exists_mapM_naturalLoop {found : List (V × List V)}
    (hfound : ∀ e ∈ found, ∀ u ∈ e.2, g.BackEdge entry u e.1) :
    ∃ n, ∀ fuel ≥ n, ∃ loops, found.mapM (fun e => g.naturalLoop fuel e.1 e.2) = some loops := by
  induction found with
  | nil => exact ⟨0, fun _ _ => ⟨[], rfl⟩⟩
  | cons e found ih =>
    obtain ⟨he, hfound⟩ := List.forall_mem_cons.mp hfound
    obtain ⟨n, hn⟩ := exists_naturalLoop hg e.1 e.2 he
    obtain ⟨m, hm⟩ := ih hfound
    refine ⟨n + m, fun fuel hfuel => ?_⟩
    obtain ⟨l, hl⟩ := hn fuel (by omega)
    obtain ⟨loops, hloops⟩ := hm fuel (by omega)
    refine ⟨l :: loops, ?_⟩
    rw [List.mapM_cons, hl, hloops]
    rfl

theorem of_mapM_naturalLoop {fuel : Nat} {found : List (V × List V)}
    (hfound : ∀ e ∈ found, ∀ u, u ∈ e.2 ↔ g.BackEdge entry u e.1) {loops : List (NaturalLoop V)}
    (h : found.mapM (fun e => g.naturalLoop fuel e.1 e.2) = some loops) :
    loops.map NaturalLoop.header = found.map Prod.fst ∧ ∀ l ∈ loops, l.Of g entry := by
  induction found generalizing loops with
  | nil =>
    obtain rfl := Option.some.inj h
    exact ⟨rfl, fun l hl => absurd hl List.not_mem_nil⟩
  | cons e found ih =>
    obtain ⟨he, hfound⟩ := List.forall_mem_cons.mp hfound
    rw [List.mapM_cons] at h
    obtain ⟨l, hl, h⟩ := Option.bind_eq_some_iff.mp h
    obtain ⟨rest, hrest, h⟩ := Option.bind_eq_some_iff.mp h
    obtain rfl := Option.some.inj h
    obtain ⟨hheader, hof⟩ := of_naturalLoop hg hl he
    obtain ⟨hheaders, hall⟩ := ih hfound hrest
    refine ⟨?_, List.forall_mem_cons.mpr ⟨hof, hall⟩⟩
    rw [List.map_cons, List.map_cons, hheader, hheaders]

theorem latches_byHeader {e : V × List V} (he : e ∈ g.byHeader) (u : V) :
    u ∈ e.2 ↔ g.BackEdge entry u e.1 := by
  rw [grouped_byHeader.latches e.1 e.2 he u, mem_backEdges hg]

theorem of_naturalLoops {fuel : Nat} {loops : List (NaturalLoop V)}
    (h : g.naturalLoops fuel = some loops) :
    (∀ l ∈ loops, l.Of g entry) ∧ (loops.map NaturalLoop.header).Perm (g.byHeader.map Prod.fst) ∧
      loops.Pairwise fun a b => a.body.length ≤ b.body.length := by
  unfold naturalLoops at h
  obtain ⟨found, hfound, rfl⟩ := Option.map_eq_some_iff.mp h
  obtain ⟨hheaders, hall⟩ := of_mapM_naturalLoop hg (fun e he => latches_byHeader hg he) hfound
  refine ⟨fun l hl => hall l (List.mem_mergeSort.mp hl), ?_, ?_⟩
  · rw [← hheaders]
    exact (List.mergeSort_perm found _).map _
  · have hsorted := @List.pairwise_mergeSort (NaturalLoop V)
      (fun a b => decide (a.body.length ≤ b.body.length))
      (fun a b c hab hbc => decide_eq_true
        (Nat.le_trans (of_decide_eq_true hab) (of_decide_eq_true hbc)))
      (fun a b => by
        rw [Bool.or_eq_true, decide_eq_true_eq, decide_eq_true_eq]
        exact Nat.le_total _ _) found
    exact hsorted.imp of_decide_eq_true

/-- The loops found are those of the region's back edges, one for each header,
    the smallest first. -/
theorem naturalLoops_exact : ∃ n, ∀ fuel ≥ n, ∃ loops, g.naturalLoops fuel = some loops ∧
    (∀ l ∈ loops, l.Of g entry) ∧ (loops.map NaturalLoop.header).Nodup ∧
    (∀ h, h ∈ loops.map NaturalLoop.header ↔ ∃ u, g.BackEdge entry u h) ∧
    loops.Pairwise fun a b => a.body.length ≤ b.body.length := by
  obtain ⟨n, hn⟩ := exists_mapM_naturalLoop hg
    fun e he u hu => (latches_byHeader hg he u).mp hu
  refine ⟨n, fun fuel hfuel => ?_⟩
  obtain ⟨found, hfound⟩ := hn fuel hfuel
  have hloops : g.naturalLoops fuel =
      some (found.mergeSort fun a b => a.body.length ≤ b.body.length) := by
    rw [naturalLoops, hfound]
    rfl
  obtain ⟨hall, hperm, hsorted⟩ := of_naturalLoops hg hloops
  refine ⟨_, hloops, hall, hperm.nodup_iff.mpr grouped_byHeader.nodup, fun h => ?_, hsorted⟩
  rw [hperm.mem_iff, grouped_byHeader.headers]
  exact exists_congr fun u => mem_backEdges hg u h

end Loops

theorem naturalLoops_spin : ∃ n, ∀ fuel ≥ n, ∃ loops, spin.naturalLoops fuel = some loops ∧
    (∀ l ∈ loops, l.Of spin false) ∧ (loops.map NaturalLoop.header).Nodup ∧
    (∀ h, h ∈ loops.map NaturalLoop.header ↔ ∃ u, spin.BackEdge false u h) ∧
    loops.Pairwise fun a b => a.body.length ≤ b.body.length :=
  naturalLoops_exact documented_spin

/-! ## Ways into a loop -/

section Ways

variable {entry : V} {l : NaturalLoop V}

/-- The header dominates what leads to a latch. -/
theorem NaturalLoop.Of.dominates (hl : l.Of g entry) {b : V}
    (hb : b ∈ l.body) : Dominates g.Edge entry l.header b := by
  rcases (hl.body b).mp hb with rfl | ⟨u, hu, hpath⟩
  · exact .refl _
  · induction hpath using Relation.ReflTransGen.head_induction_on with
    | refl => exact ((hl.latches u).mp hu).2.2
    | @head b c hstep hrest ih =>
      intro visited hwalk
      -- The walk goes on to `c` and so has the header, which is not `c` itself.
      have hc := ih ((hl.body c).mpr (Or.inr ⟨u, hu, hrest⟩)) _ (hwalk.step hstep.1)
      exact (List.mem_cons.mp hc).resolve_left (Ne.symm hstep.2)

/-- Control enters the body at the header only. -/
theorem NaturalLoop.Of.mem_of_edge (hl : l.Of g entry) {u b : V} (hedge : g.Edge u b)
    (hb : b ∈ l.body) (hne : b ≠ l.header) : u ∈ l.body := by
  obtain ⟨latch, hlatch, hpath⟩ := ((hl.body b).mp hb).resolve_left hne
  exact (hl.body u).mpr (Or.inr ⟨latch, hlatch, .head ⟨hedge, hne⟩ hpath⟩)

variable (hg : g.Documented entry) [DecidableEq V]
include hg

theorem of_preheader {p : V} (h : g.preheader l = some p) :
    g.succs p = [l.header] ∧ p ∉ l.body ∧ ∀ u, g.Edge u l.header → u ∈ l.body ∨ u = p := by
  unfold preheader at h
  split at h
  · next single hsingle =>
    split at h
    · next hlength =>
      obtain rfl := Option.some.inj h
      have hin : ∀ u, u ∈ g.preds l.header ∧ u ∉ l.body ↔ u = single := by
        intro u
        rw [← List.mem_singleton, ← hsingle, List.mem_filter, decide_eq_true_eq]
      obtain ⟨hpred, hout⟩ := (hin single).mpr rfl
      obtain ⟨succ, hsucc⟩ := List.length_eq_one_iff.mp hlength
      have hedge := (hg.preds_iff single l.header).mp hpred
      rw [Edge, hsucc, List.mem_singleton] at hedge
      refine ⟨by rw [hsucc, hedge], hout, fun u hu => ?_⟩
      by_cases hbody : u ∈ l.body
      · exact Or.inl hbody
      · exact Or.inr ((hin u).mp ⟨(hg.preds_iff u l.header).mpr hu, hbody⟩)
    · cases h
  · cases h

/-- The first walk to a header comes from outside its loop, so through the
    preheader. -/
theorem preheader_dominates (hl : l.Of g entry) {p : V}
    (h : g.preheader l = some p) (hentry : l.header ≠ entry) :
    Dominates g.Edge entry p l.header := by
  obtain ⟨-, -, hpreds⟩ := of_preheader hg h
  intro visited hwalk
  induction hn : visited.length using Nat.strongRecOn generalizing visited with
  | _ n ih =>
    obtain ⟨u, rest, rfl, hrest, hedge⟩ : ∃ u rest, visited = l.header :: rest ∧
        Walk g.Edge entry u rest ∧ g.Edge u l.header := by
      cases hwalk with
      | entry => exact absurd rfl hentry
      | step hrest hedge => exact ⟨_, _, rfl, hrest, hedge⟩
    rcases hpreds u hedge with hbody | rfl
    · -- A walk through the body has been at the header before.
      obtain ⟨before, hbefore, hsub, hle, -⟩ := hrest.visit (hl.dominates hbody rest hrest)
      rw [List.length_cons] at hn
      exact List.mem_cons_of_mem _ (hsub p (ih before.length (by omega) before hbefore rfl))
    · exact List.mem_cons_of_mem _ hrest.mem

/-- The header dominates the body and is the only way in; a preheader leads
    nowhere else and dominates the body too. -/
theorem naturalLoops_singleEntry {fuel : Nat} {loops : List (NaturalLoop V)}
    (h : g.naturalLoops fuel = some loops) (hl : l ∈ loops) :
    (∀ b ∈ l.body, Dominates g.Edge entry l.header b) ∧
    (∀ u b, g.Edge u b → b ∈ l.body → u ∉ l.body → b = l.header) ∧
    ∀ p, g.preheader l = some p → g.succs p = [l.header] ∧ p ∉ l.body ∧
      (l.header ≠ entry → ∀ b ∈ l.body, Dominates g.Edge entry p b) := by
  have hof := (of_naturalLoops hg h).1 l hl
  refine ⟨fun b hb => hof.dominates hb, fun u b hedge hb hu => ?_, fun p hp => ?_⟩
  · by_contra hne
    exact hu (hof.mem_of_edge hedge hb hne)
  · obtain ⟨hsuccs, hout, -⟩ := of_preheader hg hp
    exact ⟨hsuccs, hout, fun hentry b hb =>
      (preheader_dominates hg hof hp hentry).trans (hof.dominates hb)⟩

end Ways

theorem naturalLoops_spin_eq : spin.naturalLoops 2 = some [⟨true, [true], [true]⟩] := by
  have hfound : spin.byHeader.mapM (fun e => spin.naturalLoop 2 e.1 e.2) =
      some [⟨true, [true], [true]⟩] := rfl
  rw [naturalLoops, hfound, Option.map_some, List.mergeSort_singleton]

/-- The entry is the preheader of the loop. -/
theorem preheader_spin : spin.preheader ⟨true, [true], [true]⟩ = some false ∧
    Dominates spin.Edge false false true :=
  ⟨rfl, ((naturalLoops_singleEntry documented_spin naturalLoops_spin_eq List.mem_cons_self).2.2
    false rfl).2.2 (Ne.symm Bool.false_ne_true) true List.mem_cons_self⟩

end LoopRegion

end Crabbit.Llvm
