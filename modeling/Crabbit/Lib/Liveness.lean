/-
  Crabbit.Lib.Liveness

  Liveness of variables over a control-flow graph of instruction lists: the
  textbook equations with their round-robin solution, the path-based
  definition `LiveAt`, and the theorem that the two agree.

  An instruction is any type with lists of used and defined variables; a
  block is a list of instructions, named by its index.
-/

import Crabbit.Lib.RoundRobin
import Mathlib.Data.Finset.Card
import Mathlib.Data.Finset.Lattice.Basic
import Mathlib.Data.List.Range
import Mathlib.Data.Nat.Cast.Basic

namespace Crabbit.Lib

/-- The set of a list; folded so that it evaluates on closed terms. -/
def toSet {V : Type*} [DecidableEq V] (vs : List V) : Finset V := vs.foldr insert ∅

@[simp] theorem mem_toSet {V : Type*} [DecidableEq V] {v : V} {vs : List V} : v ∈ toSet vs ↔ v ∈ vs := by
  induction vs with
  | nil => simp [toSet]
  | cons w vs ih =>
    rw [show toSet (w :: vs) = insert w (toSet vs) from rfl, Finset.mem_insert, ih,
      List.mem_cons]

/-- A control-flow graph over instructions `I` and variables `V`. -/
structure FlowGraph (I V : Type*) where
  blocks : List (List I)
  succ : Nat → List Nat
  uses : I → List V
  defs : I → List V

namespace FlowGraph

variable {I V : Type*}

/-- The instructions of block `b`, none past the last block. -/
def block (g : FlowGraph I V) (b : Nat) : List I := g.blocks.getD b []

/-- Control flow stays inside the graph. -/
def Closed (g : FlowGraph I V) : Prop :=
  ∀ b < g.blocks.length, ∀ s ∈ g.succ b, s < g.blocks.length

/-- `v` is live just before instruction `k` of block `b` (after the last one
    when `k` is the block's length): some path from there reaches a use of
    `v` before any definition. -/
inductive LiveAt (g : FlowGraph I V) (v : V) : Nat → Nat → Prop where
  | use {b k : Nat} {inst : I} (hinst : (g.block b)[k]? = some inst) (huse : v ∈ g.uses inst) :
      LiveAt g v b k
  | pass {b k : Nat} {inst : I} (hinst : (g.block b)[k]? = some inst) (hdef : v ∉ g.defs inst)
      (hnext : LiveAt g v b (k + 1)) : LiveAt g v b k
  | edge {b s : Nat} (hb : b < g.blocks.length) (hs : s ∈ g.succ b) (hnext : LiveAt g v s 0) :
      LiveAt g v b (g.block b).length

/-- `v` occupies instruction `k` of block `b`: it is live before or after it,
    or defined by it. -/
def LiveAround (g : FlowGraph I V) (v : V) (b k : Nat) : Prop :=
  ∃ inst, (g.block b)[k]? = some inst ∧
    (LiveAt g v b k ∨ LiveAt g v b (k + 1) ∨ v ∈ g.defs inst)

/-- A variable live at a point is used somewhere. -/
theorem LiveAt.exists_use {g : FlowGraph I V} {v : V} {b k : Nat} (h : LiveAt g v b k) :
    ∃ (c j : Nat) (inst : I), (g.block c)[j]? = some inst ∧ v ∈ g.uses inst := by
  induction h with
  | use hinst huse => exact ⟨_, _, _, hinst, huse⟩
  | pass _ _ _ ih => exact ih
  | edge _ _ _ ih => exact ih

section Solution

variable [DecidableEq V]

/-- Walk a block forwards, collecting the variables used before any
    definition in it and the variables it defines. -/
def scanBlock (g : FlowGraph I V) : List I → Finset V → Finset V → Finset V × Finset V
  | [], used, defined => (used, defined)
  | inst :: insts, used, defined =>
    scanBlock g insts (used ∪ (toSet (g.uses inst) \ defined)) (defined ∪ toSet (g.defs inst))

def blockUses (g : FlowGraph I V) (b : Nat) : Finset V := (scanBlock g (g.block b) ∅ ∅).1

def blockDefs (g : FlowGraph I V) (b : Nat) : Finset V := (scanBlock g (g.block b) ∅ ∅).2

/-- The liveness equations: `live_out` joins the successors' `live_in`, and
    `live_in = uses ∪ (live_out \ defs)`.  A fact is the pair of both. -/
def transfer (g : FlowGraph I V) (facts : Nat → Finset V × Finset V) (b : Nat) :
    Finset V × Finset V :=
  let out := (g.succ b).foldr (fun s acc => (facts s).1 ∪ acc) ∅
  (g.blockUses b ∪ (out \ g.blockDefs b), out)

/-- Every variable some instruction uses. -/
def allUses (g : FlowGraph I V) : Finset V := toSet (g.blocks.flatten.flatMap g.uses)

/-- The blocks, last one first. -/
def order (g : FlowGraph I V) : List Nat := (List.range g.blocks.length).reverse

/-- The liveness loop. -/
def liveSets (g : FlowGraph I V) : Option (Nat → Finset V × Finset V) :=
  solve g.transfer g.order (g.blocks.length * (2 * g.allUses.card) + 1) fun _ => (∅, ∅)

/-- The live variables before a list of instructions, from those after it. -/
def liveBefore (g : FlowGraph I V) (insts : List I) (out : Finset V) : Finset V :=
  insts.foldr (fun inst live => (live \ toSet (g.defs inst)) ∪ toSet (g.uses inst)) out

variable {g : FlowGraph I V}

/-! ## The block summary -/

theorem scanBlock_eq (insts : List I) (used defined out : Finset V) :
    (scanBlock g insts used defined).1 ∪ (out \ (scanBlock g insts used defined).2) =
      used ∪ (g.liveBefore insts out \ defined) := by
  induction insts generalizing used defined with
  | nil => rfl
  | cons inst insts ih =>
    rw [scanBlock, ih]
    ext v
    simp only [liveBefore, List.foldr_cons, Finset.mem_union, Finset.mem_sdiff, mem_toSet]
    tauto

/-- The summary equation computes the live variables at the block's start. -/
theorem summary_eq_liveBefore (b : Nat) (out : Finset V) :
    g.blockUses b ∪ (out \ g.blockDefs b) = g.liveBefore (g.block b) out := by
  have h := scanBlock_eq (g := g) (g.block b) ∅ ∅ out
  simpa only [blockUses, blockDefs, Finset.empty_union, Finset.sdiff_empty] using h

theorem mem_out {facts : Nat → Finset V × Finset V} {b : Nat} {v : V} :
    v ∈ (g.transfer facts b).2 ↔ ∃ s ∈ g.succ b, v ∈ (facts s).1 := by
  unfold transfer
  simp only
  induction g.succ b with
  | nil => simp
  | cons s succ ih =>
    simp only [List.foldr_cons, Finset.mem_union, ih, List.mem_cons, exists_eq_or_imp]

theorem liveBefore_cons (inst : I) (insts : List I) (out : Finset V) :
    g.liveBefore (inst :: insts) out =
      (g.liveBefore insts out \ toSet (g.defs inst)) ∪ toSet (g.uses inst) := rfl

theorem liveBefore_drop {b k : Nat} {inst : I} (hinst : (g.block b)[k]? = some inst)
    (out : Finset V) :
    g.liveBefore ((g.block b).drop k) out =
      (g.liveBefore ((g.block b).drop (k + 1)) out \ toSet (g.defs inst)) ∪
        toSet (g.uses inst) := by
  obtain ⟨hk, rfl⟩ := List.getElem?_eq_some_iff.mp hinst
  rw [List.drop_eq_getElem_cons hk, liveBefore_cons]

/-! ## Soundness: any solution of the equations covers every path -/

/-- The facts solve the equations of every block. -/
def IsSolution (g : FlowGraph I V) (facts : Nat → Finset V × Finset V) : Prop :=
  ∀ b < g.blocks.length, g.transfer facts b = facts b

theorem IsSolution.liveIn {facts : Nat → Finset V × Finset V} (h : g.IsSolution facts)
    {b : Nat} (hb : b < g.blocks.length) :
    (facts b).1 = g.liveBefore (g.block b) (facts b).2 := by
  have hfix := h b hb
  calc (facts b).1 = (g.transfer facts b).1 := by rw [hfix]
    _ = g.liveBefore (g.block b) (g.transfer facts b).2 := summary_eq_liveBefore b _
    _ = g.liveBefore (g.block b) (facts b).2 := by rw [hfix]

omit [DecidableEq V] in
theorem block_eq_nil {b : Nat} (hb : ¬ b < g.blocks.length) : g.block b = [] := by
  unfold block
  rw [List.getD_eq_getElem?_getD, List.getElem?_eq_none (Nat.not_lt.mp hb)]
  rfl

omit [DecidableEq V] in
theorem lt_of_block_getElem? {b k : Nat} {inst : I} (hinst : (g.block b)[k]? = some inst) :
    b < g.blocks.length := by
  by_contra hb
  rw [block_eq_nil hb] at hinst
  cases hinst

omit [DecidableEq V] in
theorem LiveAt.block_lt {v : V} {b k : Nat} (h : LiveAt g v b k) : b < g.blocks.length := by
  cases h with
  | use hinst _ => exact lt_of_block_getElem? hinst
  | pass hinst _ _ => exact lt_of_block_getElem? hinst
  | edge hb _ _ => exact hb

theorem IsSolution.mem_of_liveAt {facts : Nat → Finset V × Finset V} (h : g.IsSolution facts)
    {v : V} {b k : Nat} (hlive : LiveAt g v b k) :
    v ∈ g.liveBefore ((g.block b).drop k) (facts b).2 := by
  induction hlive with
  | use hinst huse =>
    rw [liveBefore_drop hinst]
    exact Finset.mem_union_right _ (mem_toSet.mpr huse)
  | pass hinst hdef _ ih =>
    rw [liveBefore_drop hinst]
    refine Finset.mem_union_left _ (Finset.mem_sdiff.mpr ⟨ih, ?_⟩)
    rwa [mem_toSet]
  | @edge b s hb hs hnext ih =>
    rw [List.drop_length]
    have hout : v ∈ (g.transfer facts b).2 := by
      refine mem_out.mpr ⟨s, hs, ?_⟩
      rw [h.liveIn hnext.block_lt]
      exact ih
    rw [h b hb] at hout
    exact hout

/-! ## Precision: the loop never adds a variable without a path -/

/-- Every variable of the facts is live. -/
def OnlyLive (g : FlowGraph I V) (facts : Nat → Finset V × Finset V) : Prop :=
  ∀ b < g.blocks.length, (∀ v ∈ (facts b).1, LiveAt g v b 0) ∧
    ∀ v ∈ (facts b).2, LiveAt g v b (g.block b).length

theorem liveAt_of_mem_liveBefore {b : Nat} {out : Finset V}
    (hout : ∀ v ∈ out, LiveAt g v b (g.block b).length) {v : V} :
    ∀ {n k : Nat}, k + n = (g.block b).length →
      v ∈ g.liveBefore ((g.block b).drop k) out → LiveAt g v b k := by
  intro n
  induction n with
  | zero =>
    intro k hk hv
    obtain rfl : k = (g.block b).length := hk
    rw [List.drop_length] at hv
    exact hout v hv
  | succ n ih =>
    intro k hk hv
    have hinst := List.getElem?_eq_getElem (show k < (g.block b).length by omega)
    rw [liveBefore_drop hinst] at hv
    rcases Finset.mem_union.mp hv with hv | hv
    · obtain ⟨hlive, hdef⟩ := Finset.mem_sdiff.mp hv
      exact .pass hinst (by rwa [mem_toSet] at hdef) (ih (by omega) hlive)
    · exact .use hinst (mem_toSet.mp hv)

theorem OnlyLive.transfer_out {facts : Nat → Finset V × Finset V} (hclosed : g.Closed)
    (h : g.OnlyLive facts) {b : Nat} (hb : b < g.blocks.length) {v : V}
    (hv : v ∈ (g.transfer facts b).2) : LiveAt g v b (g.block b).length := by
  obtain ⟨s, hs, hv⟩ := mem_out.mp hv
  exact .edge hb hs ((h s (hclosed b hb s hs)).1 v hv)

theorem OnlyLive.update (hclosed : g.Closed) (facts : Nat → Finset V × Finset V) (b : Nat)
    (h : g.OnlyLive facts) : g.OnlyLive (Function.update facts b (g.transfer facts b)) := by
  intro c hc
  by_cases hcb : c = b
  · subst hcb
    rw [Function.update_self]
    have hout : ∀ v ∈ (g.transfer facts c).2, LiveAt g v c (g.block c).length :=
      fun v hv => h.transfer_out hclosed hc hv
    refine ⟨fun v hv => ?_, hout⟩
    rw [show (g.transfer facts c).1 = _ from summary_eq_liveBefore c _] at hv
    exact liveAt_of_mem_liveBefore (n := (g.block c).length) (k := 0) hout (Nat.zero_add _) hv
  · rw [Function.update_of_ne hcb]
    exact h c hc

/-- The set of live variables before instruction `k` that a result of the
    loop gives is exactly the path-based one. -/
theorem mem_liveBefore_iff (hclosed : g.Closed) {facts : Nat → Finset V × Finset V}
    (h : g.liveSets = some facts) {b k : Nat} (hb : b < g.blocks.length)
    (hk : k ≤ (g.block b).length) {v : V} :
    v ∈ g.liveBefore ((g.block b).drop k) (facts b).2 ↔ LiveAt g v b k := by
  have hsol : g.IsSolution facts := fun b hb =>
    solve_isFixed h b (List.mem_reverse.mpr (List.mem_range.mpr hb))
  have honly : g.OnlyLive facts :=
    solve_invariant (P := g.OnlyLive) (OnlyLive.update hclosed)
      (fun _ _ => ⟨fun _ hv => absurd hv (Finset.notMem_empty _),
        fun _ hv => absurd hv (Finset.notMem_empty _)⟩) h
  refine ⟨fun hv => ?_, fun hv => hsol.mem_of_liveAt hv⟩
  exact liveAt_of_mem_liveBefore (honly b hb).2 (Nat.add_sub_of_le hk) hv

/-! ## The loop terminates -/

theorem transfer_mono : Monotone g.transfer := by
  intro facts facts' hle b
  have hout : (g.transfer facts b).2 ≤ (g.transfer facts' b).2 := by
    intro v hv
    obtain ⟨s, hs, hv⟩ := mem_out.mp hv
    exact mem_out.mpr ⟨s, hs, (hle s).1 hv⟩
  refine ⟨?_, hout⟩
  exact Finset.union_subset_union_right (Finset.sdiff_subset_sdiff hout (Finset.Subset.refl _))

/-- Every fact mentions used variables only. -/
def WithinUses (g : FlowGraph I V) (facts : Nat → Finset V × Finset V) : Prop :=
  ∀ b, (facts b).1 ⊆ g.allUses ∧ (facts b).2 ⊆ g.allUses

theorem mem_allUses {b k : Nat} {inst : I} (hinst : (g.block b)[k]? = some inst) {v : V}
    (hv : v ∈ g.uses inst) : v ∈ g.allUses := by
  have hb := lt_of_block_getElem? hinst
  have hmem : inst ∈ g.block b := List.mem_of_getElem? hinst
  rw [show g.block b = g.blocks[b] by
    simp only [block, List.getD_eq_getElem?_getD, List.getElem?_eq_getElem hb,
      Option.getD_some]] at hmem
  refine mem_toSet.mpr (List.mem_flatMap.mpr ⟨inst, ?_, hv⟩)
  exact List.mem_flatten.mpr ⟨_, List.getElem_mem hb, hmem⟩

theorem liveBefore_subset {b : Nat} {out : Finset V} (hout : out ⊆ g.allUses) :
    ∀ insts : List I, (∀ inst ∈ insts, inst ∈ g.block b) →
      g.liveBefore insts out ⊆ g.allUses
  | [], _ => hout
  | inst :: insts, hsub => by
    have ih := liveBefore_subset hout insts fun i hi => hsub i (List.mem_cons_of_mem _ hi)
    rw [liveBefore_cons]
    intro v hv
    rcases Finset.mem_union.mp hv with hv | hv
    · exact ih (Finset.mem_sdiff.mp hv).1
    · obtain ⟨k, hk⟩ := List.getElem?_of_mem (hsub inst List.mem_cons_self)
      exact mem_allUses hk (mem_toSet.mp hv)

theorem WithinUses.update (facts : Nat → Finset V × Finset V) (b : Nat)
    (h : g.WithinUses facts) : g.WithinUses (Function.update facts b (g.transfer facts b)) := by
  intro c
  by_cases hcb : c = b
  · subst hcb
    rw [Function.update_self]
    have hout : (g.transfer facts c).2 ⊆ g.allUses := by
      intro v hv
      obtain ⟨s, _, hv⟩ := mem_out.mp hv
      exact (h s).1 hv
    refine ⟨?_, hout⟩
    rw [show (g.transfer facts c).1 = _ from summary_eq_liveBefore c _]
    exact liveBefore_subset hout _ fun _ hi => hi
  · rw [Function.update_of_ne hcb]
    exact h c

/-- The size of a fact. -/
def factRank (fact : Finset V × Finset V) : Nat := fact.1.card + fact.2.card

omit [DecidableEq V] in
theorem factRank_strictMono : StrictMono (factRank (V := V)) := by
  intro a b hab
  unfold factRank
  rcases Prod.lt_iff.mp hab with ⟨h1, h2⟩ | ⟨h1, h2⟩
  · exact Nat.add_lt_add_of_lt_of_le (Finset.card_lt_card h1) (Finset.card_le_card h2)
  · exact Nat.add_lt_add_of_le_of_lt (Finset.card_le_card h1) (Finset.card_lt_card h2)

theorem WithinUses.totalRank_le {facts : Nat → Finset V × Finset V} (h : g.WithinUses facts) :
    totalRank factRank g.order facts ≤ g.blocks.length * (2 * g.allUses.card) := by
  have hle : ∀ n ∈ g.order.map fun b => factRank (facts b), n ≤ 2 * g.allUses.card := by
    intro n hn
    obtain ⟨b, -, rfl⟩ := List.mem_map.mp hn
    have h1 := Finset.card_le_card (h b).1
    have h2 := Finset.card_le_card (h b).2
    unfold factRank
    omega
  have := List.sum_le_card_nsmul _ _ hle
  simpa only [totalRank, order, List.length_map, List.length_reverse, List.length_range,
    nsmul_eq_mul, Nat.cast_id] using this

/-- The liveness loop ends. -/
theorem exists_liveSets (g : FlowGraph I V) : ∃ facts, g.liveSets = some facts := by
  refine exists_solve (P := g.WithinUses) transfer_mono factRank_strictMono
    WithinUses.update (fun _ h => h.totalRank_le) ?_ ?_ (by omega)
  · exact fun b => ⟨Finset.empty_subset _, Finset.empty_subset _⟩
  · exact fun b => ⟨Finset.empty_subset _, Finset.empty_subset _⟩

end Solution

end FlowGraph

end Crabbit.Lib
