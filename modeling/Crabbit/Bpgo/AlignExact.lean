/-
  Crabbit.Bpgo.AlignExact

  An alignment is a partition of both sides: every op is paired once, or
  listed as created or deleted. The pairs that the matching of the blocks makes
  are longest common subsequences, and a replacement is what is left over
  between two of them.

  The leftovers of a block may be paired with each other in the second phase,
  across those pairs: it goes by key over the whole function.
-/

import Crabbit.Bpgo.Matching

namespace Crabbit.Bpgo

open Crabbit.Lib

/-! ## Blocks by label -/

/-- No two blocks have the same label. -/
def Func.DistinctLabels (f : Func) : Prop := (f.blocks.filterMap Prod.fst).Nodup

instance (f : Func) : Decidable f.DistinctLabels :=
  inferInstanceAs (Decidable (f.blocks.filterMap Prod.fst).Nodup)

theorem mem_blocks_of_labelled {f : Func} {label : String} {ops : List Ptr}
    (h : f.labelled label = some ops) : (some label, ops) ∈ f.blocks := by
  obtain ⟨block, hblock, rfl⟩ := Option.map_eq_some_iff.mp h
  obtain ⟨hmem, hlabel⟩ := List.mem_filter.mp (List.mem_of_getLast? hblock)
  rw [← beq_iff_eq.mp hlabel]
  exact hmem

theorem unique_of_nodup_labels {blocks : List (Option String × List Ptr)}
    (h : (blocks.filterMap Prod.fst).Nodup) {label : String} {ops ops' : List Ptr}
    (hops : (some label, ops) ∈ blocks) (hops' : (some label, ops') ∈ blocks) : ops = ops' := by
  induction blocks with
  | nil => exact absurd hops List.not_mem_nil
  | cons block blocks ih =>
    have hlisted : ∀ {ops : List Ptr}, (some label, ops) ∈ blocks →
        label ∈ blocks.filterMap Prod.fst :=
      fun h => List.mem_filterMap.mpr ⟨_, h, rfl⟩
    rw [List.filterMap_cons] at h
    rcases List.mem_cons.mp hops with heq | hops <;> rcases List.mem_cons.mp hops' with heq' | hops'
    · exact (Prod.ext_iff.mp (heq.trans heq'.symm)).2
    · rw [← heq] at h
      exact absurd (hlisted hops') (List.nodup_cons.mp h).1
    · rw [← heq'] at h
      exact absurd (hlisted hops) (List.nodup_cons.mp h).1
    · apply ih _ hops hops'
      split at h
      · exact h
      · exact (List.nodup_cons.mp h).2

/-- A block is found by its label. -/
theorem labelled_of_mem {f : Func} (hlabels : f.DistinctLabels) {label : String} {ops : List Ptr}
    (h : (some label, ops) ∈ f.blocks) : f.labelled label = some ops := by
  have hfilter : (some label, ops) ∈ f.blocks.filter fun block => block.1 == some label :=
    List.mem_filter.mpr ⟨h, beq_self_eq_true _⟩
  cases hfound : f.labelled label with
  | none =>
    rw [Func.labelled, Option.map_eq_none_iff, List.getLast?_eq_none_iff] at hfound
    rw [hfound] at hfilter
    exact absurd hfilter List.not_mem_nil
  | some ops' => rw [unique_of_nodup_labels hlabels h (mem_blocks_of_labelled hfound)]

theorem unique_of_nodup_ops {blocks : List (Option String × List Ptr)}
    (h : (blocks.flatMap Prod.snd).Nodup) {block block' : Option String × List Ptr}
    (hblock : block ∈ blocks) (hblock' : block' ∈ blocks) {op : Ptr} (hop : op ∈ block.2)
    (hop' : op ∈ block'.2) : block = block' := by
  induction blocks with
  | nil => exact absurd hblock List.not_mem_nil
  | cons first blocks ih =>
    rw [List.flatMap_cons, List.nodup_append] at h
    obtain ⟨-, hrest, hdisjoint⟩ := h
    have hlisted : ∀ {b : Option String × List Ptr}, b ∈ blocks → op ∈ b.2 →
        op ∈ blocks.flatMap Prod.snd :=
      fun hb hmem => List.mem_flatMap.mpr ⟨_, hb, hmem⟩
    rcases List.mem_cons.mp hblock with heq | hmem <;>
      rcases List.mem_cons.mp hblock' with heq' | hmem'
    · rw [heq, heq']
    · exact absurd rfl (hdisjoint op (heq ▸ hop) op (hlisted hmem' hop'))
    · exact absurd rfl (hdisjoint op (heq' ▸ hop') op (hlisted hmem hop))
    · exact ih hrest hmem hmem'

/-- An op is in one block only. -/
theorem eq_of_mem_blocks {f : Func} {block block' : Option String × List Ptr}
    (h : block ∈ f.blocks) (h' : block' ∈ f.blocks) {op : Ptr} (hop : op ∈ block.2)
    (hop' : op ∈ block'.2) : block = block' :=
  unique_of_nodup_ops f.nodup_blockOps h h' hop hop'

theorem nodup_block {f : Func} {block : Option String × List Ptr} (h : block ∈ f.blocks) :
    block.2.Nodup :=
  (List.nodup_flatMap.mp f.nodup_blockOps).1 block h

/-- The blocks of both sides with one label. -/
structure MatchedBlocks (input output : Func) (label : String) (ins outs : List Ptr) : Prop where
  input : (some label, ins) ∈ input.blocks
  output : (some label, outs) ∈ output.blocks

section Align

variable (key : OpAttrs → String) (input output : Func)

/-! ## The first phase -/

/-- The pairs of a block of the output. -/
def pairsOf (block : Option String × List Ptr) : List (Ptr × Ptr) :=
  ((block.1.bind input.labelled).map fun ins => blockPairs key input output ins block.2).getD []

/-- What stands between the pairs of a block of the output. -/
def gapsOfBlock (block : Option String × List Ptr) : List Replacement :=
  ((block.1.bind input.labelled).map fun ins =>
    gapsOf ins block.2 0 0 (matching (ins.map fun op => key (input.attrs op))
      (block.2.map fun op => key (output.attrs op)) ++ [(ins.length, block.2.length)])).getD []

theorem alignBlock_eq (st : Matched) (block : Option String × List Ptr) :
    (alignBlock key input output st block).pairs = st.pairs ++ pairsOf key input output block ∧
    (alignBlock key input output st block).inUsed =
      st.inUsed ++ (pairsOf key input output block).map Prod.fst ∧
    (alignBlock key input output st block).gaps =
      st.gaps ++ gapsOfBlock key input output block := by
  rw [alignBlock, pairsOf, gapsOfBlock]
  cases block.1.bind input.labelled with
  | none => exact ⟨(List.append_nil _).symm, (List.append_nil _).symm, (List.append_nil _).symm⟩
  | some ins => exact ⟨rfl, rfl, rfl⟩

theorem foldl_alignBlock (blocks : List (Option String × List Ptr)) : ∀ st : Matched,
    (blocks.foldl (alignBlock key input output) st).pairs =
      st.pairs ++ blocks.flatMap (pairsOf key input output) ∧
    (blocks.foldl (alignBlock key input output) st).inUsed =
      st.inUsed ++ (blocks.flatMap (pairsOf key input output)).map Prod.fst ∧
    (blocks.foldl (alignBlock key input output) st).gaps =
      st.gaps ++ blocks.flatMap (gapsOfBlock key input output) := by
  induction blocks with
  | nil =>
    exact fun st => ⟨(List.append_nil _).symm, (List.append_nil _).symm, (List.append_nil _).symm⟩
  | cons block blocks ih =>
    intro st
    obtain ⟨hpairs, hused, hgaps⟩ := ih (alignBlock key input output st block)
    obtain ⟨hpairs', hused', hgaps'⟩ := alignBlock_eq key input output st block
    rw [List.foldl_cons, hpairs, hused, hgaps, hpairs', hused', hgaps', List.flatMap_cons,
      List.flatMap_cons, List.map_append]
    simp only [List.append_assoc, and_self]

theorem alignBlocks_pairs :
    (alignBlocks key input output).pairs = output.blocks.flatMap (pairsOf key input output) :=
  (foldl_alignBlock key input output output.blocks {}).1

theorem alignBlocks_inUsed :
    (alignBlocks key input output).inUsed = (alignBlocks key input output).pairs.map Prod.fst := by
  rw [alignBlocks_pairs]
  exact (foldl_alignBlock key input output output.blocks {}).2.1

theorem alignBlocks_gaps :
    (alignBlocks key input output).gaps = output.blocks.flatMap (gapsOfBlock key input output) :=
  (foldl_alignBlock key input output output.blocks {}).2.2

theorem pairsOf_eq (hin : input.DistinctLabels) {label : String} {ins outs : List Ptr}
    (h : (some label, ins) ∈ input.blocks) :
    pairsOf key input output (some label, outs) = blockPairs key input output ins outs := by
  have hfound : (some label).bind input.labelled = some ins := labelled_of_mem hin h
  rw [pairsOf, hfound]
  rfl

/-- A block with pairs has a block of the input with its label. -/
theorem matchedBlocks_of_mem {block : Option String × List Ptr} (hblock : block ∈ output.blocks)
    {p : Ptr × Ptr} (hp : p ∈ pairsOf key input output block) :
    ∃ label ins, block.1 = some label ∧ MatchedBlocks input output label ins block.2 ∧
      p ∈ blockPairs key input output ins block.2 := by
  rw [pairsOf] at hp
  cases hfound : block.1.bind input.labelled with
  | none =>
    rw [hfound] at hp
    exact absurd hp List.not_mem_nil
  | some ins =>
    rw [hfound] at hp
    obtain ⟨label, hlabel, hins⟩ := Option.bind_eq_some_iff.mp hfound
    refine ⟨label, ins, hlabel, ⟨mem_blocks_of_labelled hins, ?_⟩, hp⟩
    rw [← hlabel]
    exact hblock

/-! ## Inside a block -/

theorem getD_mem {ops : List Ptr} {i : Nat} (h : i < ops.length) : ops.getD i 0 ∈ ops := by
  rw [← List.getElem_eq_getD (h := h) 0]
  exact List.getElem_mem h

variable {input output} in
theorem blockPairs_mem {ins outs : List Ptr} {p : Ptr × Ptr}
    (hp : p ∈ blockPairs key input output ins outs) :
    p.1 ∈ ins ∧ p.2 ∈ outs ∧ key (input.attrs p.1) = key (output.attrs p.2) := by
  have hascending := matching_ascending (ins.map fun op => key (input.attrs op))
    (outs.map fun op => key (output.attrs op))
  obtain ⟨q, hq, rfl⟩ := List.mem_map.mp hp
  have hkeys := matching_keys _ _ q hq
  have hi := hascending.fst_lt q hq
  have ho := hascending.snd_lt q hq
  rw [List.length_map] at hi ho
  rw [List.getElem?_map, List.getElem?_map, List.getElem?_eq_getElem hi,
    List.getElem?_eq_getElem ho] at hkeys
  refine ⟨getD_mem hi, getD_mem ho, ?_⟩
  show key (input.attrs (ins.getD q.1 0)) = key (output.attrs (outs.getD q.2 0))
  rw [← List.getElem_eq_getD (h := hi) 0, ← List.getElem_eq_getD (h := ho) 0]
  exact Option.some.inj hkeys

theorem blockPairs_fst_sublist (ins outs : List Ptr) :
    ((blockPairs key input output ins outs).map Prod.fst).Sublist ins := by
  have h := (matching_ascending (ins.map fun op => key (input.attrs op))
    (outs.map fun op => key (output.attrs op))).swap
  rw [List.length_map, List.length_map] at h
  have hsub : (_ : List Ptr).Sublist (ins.drop 0) := h.sublist
  rw [List.drop_zero, List.map_map] at hsub
  rw [blockPairs, List.map_map]
  exact hsub

/-- The pairs between a block of the input and a block of the output. -/
def insideBlock (pairs : List (Ptr × Ptr)) (ins outs : List Ptr) : List (Ptr × Ptr) :=
  pairs.filter fun p => p.1 ∈ ins ∧ p.2 ∈ outs

theorem mem_insideBlock {pairs : List (Ptr × Ptr)} {ins outs : List Ptr} {p : Ptr × Ptr} :
    p ∈ insideBlock pairs ins outs ↔ p ∈ pairs ∧ p.1 ∈ ins ∧ p.2 ∈ outs := by
  rw [insideBlock, List.mem_filter, decide_eq_true_eq]

/-- Blocks that share no op with `outs` have no pairs with it. -/
theorem insideBlock_others {blocks : List (Option String × List Ptr)} {ins outs : List Ptr}
    (hblocks : blocks ⊆ output.blocks) (hdisjoint : ∀ op ∈ blocks.flatMap Prod.snd, op ∉ outs) :
    insideBlock (blocks.flatMap (pairsOf key input output)) ins outs = [] := by
  rw [List.eq_nil_iff_forall_not_mem]
  intro p hp
  obtain ⟨hp, -, hout⟩ := mem_insideBlock.mp hp
  obtain ⟨block, hblock, hp⟩ := List.mem_flatMap.mp hp
  obtain ⟨label, ins', -, -, hp⟩ := matchedBlocks_of_mem key input output (hblocks hblock) hp
  exact hdisjoint p.2 (List.mem_flatMap.mpr ⟨block, hblock, (blockPairs_mem key hp).2.1⟩) hout

/-- The pairs of a block are those the first phase made of it. -/
theorem insideBlock_alignBlocks (hin : input.DistinctLabels) {label : String}
    {ins outs : List Ptr} (h : MatchedBlocks input output label ins outs) :
    insideBlock (alignBlocks key input output).pairs ins outs =
      blockPairs key input output ins outs := by
  obtain ⟨before, after, hsplit⟩ := List.append_of_mem h.output
  have hnodup := output.nodup_blockOps
  rw [Func.blockOps, hsplit, List.flatMap_append, List.flatMap_cons, List.nodup_append,
    List.nodup_append] at hnodup
  obtain ⟨-, ⟨-, -, hafter⟩, hbefore⟩ := hnodup
  have hown : insideBlock (blockPairs key input output ins outs) ins outs =
      blockPairs key input output ins outs := by
    rw [insideBlock, List.filter_eq_self]
    intro p hp
    have hmem := blockPairs_mem key hp
    exact decide_eq_true ⟨hmem.1, hmem.2.1⟩
  have hfront : insideBlock (before.flatMap (pairsOf key input output)) ins outs = [] := by
    apply insideBlock_others
    · rw [hsplit]
      exact List.subset_append_left _ _
    · exact fun op hop hout => hbefore op hop op (List.mem_append_left _ hout) rfl
  have hback : insideBlock (after.flatMap (pairsOf key input output)) ins outs = [] := by
    apply insideBlock_others
    · rw [hsplit]
      exact fun b hb => List.mem_append_right _ (List.mem_cons_of_mem _ hb)
    · exact fun op hop hout => hafter op hout op hop rfl
  rw [insideBlock] at hown hfront hback
  rw [alignBlocks_pairs, hsplit, List.flatMap_append, List.flatMap_cons, insideBlock,
    List.filter_append, List.filter_append, pairsOf_eq key input output hin h.input, hfront, hown,
    hback, List.nil_append, List.append_nil]

/-- What an alignment's pairs are inside one matched block: increasing on both
    sides, and as many as a longest common subsequence of the keys has elements
    unless the block is too long. -/
structure BlockAligned (pairs : List (Ptr × Ptr)) (ins outs : List Ptr) : Prop where
  inputs : ((insideBlock pairs ins outs).map Prod.fst).Sublist ins
  outputs : ((insideBlock pairs ins outs).map Prod.snd).Sublist outs
  longest : ins.length * outs.length ≤ LCS_LIMIT →
    LongestCommon (ins.map fun op => key (input.attrs op))
      (outs.map fun op => key (output.attrs op)) (insideBlock pairs ins outs).length

theorem blockAligned_alignBlocks (hin : input.DistinctLabels) {label : String}
    {ins outs : List Ptr} (h : MatchedBlocks input output label ins outs) :
    BlockAligned key input output (alignBlocks key input output).pairs ins outs := by
  have hinside := insideBlock_alignBlocks key input output hin h
  constructor
  · rw [hinside]
    exact blockPairs_fst_sublist key input output ins outs
  · rw [hinside]
    exact blockPairs_snd_sublist key input output ins outs
  · intro hlimit
    rw [hinside, blockPairs, List.length_map]
    apply matching_longestCommon
    rwa [List.length_map, List.length_map]

/-! ## Every input once -/

theorem nodup_pairsOf_fst {block : Option String × List Ptr} :
    ((pairsOf key input output block).map Prod.fst).Nodup := by
  rw [pairsOf]
  cases hfound : block.1.bind input.labelled with
  | none => exact List.nodup_nil
  | some ins =>
    obtain ⟨label, -, hins⟩ := Option.bind_eq_some_iff.mp hfound
    exact (nodup_block (mem_blocks_of_labelled hins)).sublist
      (blockPairs_fst_sublist key input output ins block.2)

/-- Blocks with distinct labels are matched with different blocks. -/
theorem nodup_pairs_fst {blocks : List (Option String × List Ptr)}
    (hblocks : blocks ⊆ output.blocks) (hlabels : (blocks.filterMap Prod.fst).Nodup) :
    ((blocks.flatMap (pairsOf key input output)).map Prod.fst).Nodup := by
  induction blocks with
  | nil => exact List.nodup_nil
  | cons block blocks ih =>
    rw [List.flatMap_cons, List.map_append, List.nodup_append]
    have hrest : (blocks.filterMap Prod.fst).Nodup :=
      hlabels.sublist ((List.sublist_cons_self _ _).filterMap _)
    refine ⟨nodup_pairsOf_fst key input output,
      ih (fun b hb => hblocks (List.mem_cons_of_mem _ hb)) hrest, ?_⟩
    intro op hop op' hop' heq
    obtain ⟨p, hp, rfl⟩ := List.mem_map.mp hop
    obtain ⟨p', hp', rfl⟩ := List.mem_map.mp hop'
    obtain ⟨block', hblock', hp'⟩ := List.mem_flatMap.mp hp'
    obtain ⟨label, ins, hlabel, hmatched, hp⟩ :=
      matchedBlocks_of_mem key input output (hblocks List.mem_cons_self) hp
    obtain ⟨label', ins', hlabel', hmatched', hp'⟩ :=
      matchedBlocks_of_mem key input output (hblocks (List.mem_cons_of_mem _ hblock')) hp'
    -- The two blocks of the input share an op, so they have one label.
    have hsame := eq_of_mem_blocks hmatched.input hmatched'.input (blockPairs_mem key hp).1
      (heq ▸ (blockPairs_mem key hp').1)
    rw [List.filterMap_cons, hlabel] at hlabels
    apply (List.nodup_cons.mp hlabels).1
    exact List.mem_filterMap.mpr ⟨block', hblock', hlabel'.trans (Prod.ext_iff.mp hsame).1.symm⟩

/-- What holds of the leftovers taken so far. -/
structure LeftoversSound (inLeft : List Ptr) (st : Leftovers) : Prop where
  nodup : st.taken.Nodup
  subset : st.taken ⊆ inLeft
  perm : (st.pairs.map Prod.fst).Perm st.taken
  keys : ∀ p ∈ st.pairs, key (input.attrs p.1) = key (output.attrs p.2)

theorem takeLeftover_sound {inLeft : List Ptr} {st : Leftovers} (op : Ptr)
    (h : LeftoversSound key input output inLeft st) :
    LeftoversSound key input output inLeft (takeLeftover key input output inLeft st op) := by
  rw [takeLeftover]
  split
  · next i hi =>
    have hfound := List.find?_some hi
    rw [Bool.and_eq_true, beq_iff_eq, Bool.not_eq_true', List.contains_eq_mem,
      decide_eq_false_iff_not] at hfound
    constructor
    · exact List.nodup_cons.mpr ⟨hfound.2, h.nodup⟩
    · exact List.cons_subset.mpr ⟨List.mem_of_find?_eq_some hi, h.subset⟩
    · rw [List.map_append]
      exact List.perm_append_comm.trans (h.perm.cons i)
    · intro p hp
      rcases List.mem_append.mp hp with hp | hp
      · exact h.keys p hp
      · rw [List.mem_singleton.mp hp]
        exact hfound.1
  · exact ⟨h.nodup, h.subset, h.perm, h.keys⟩

theorem alignLeftovers_sound :
    LeftoversSound key input output (inLeftOrder key input output)
      (alignLeftovers key input output) := by
  have hfold : ∀ (ops : List Ptr) (st : Leftovers),
      LeftoversSound key input output (inLeftOrder key input output) st →
      LeftoversSound key input output (inLeftOrder key input output)
        (ops.foldl (takeLeftover key input output (inLeftOrder key input output)) st) := by
    intro ops
    induction ops with
    | nil => exact fun st h => h
    | cons op ops ih => exact fun st h => ih _ (takeLeftover_sound key input output op h)
  exact hfold _ {} ⟨List.nodup_nil, List.nil_subset _, List.Perm.refl _,
    fun p hp => absurd hp List.not_mem_nil⟩

/-- Every op of the input's blocks is matched or deleted, once. -/
theorem align_inputs (hout : output.DistinctLabels) :
    ((align key input output).pairs.map Prod.fst ++ (align key input output).deleted).Perm
      input.blockOps := by
  have hleft := alignLeftovers_sound key input output
  have hused : ((alignBlocks key input output).pairs.map Prod.fst).Nodup := by
    rw [alignBlocks_pairs]
    exact nodup_pairs_fst key input output (List.Subset.refl _) hout
  have hsub : (alignBlocks key input output).pairs.map Prod.fst ⊆ input.blockOps := by
    intro op hop
    obtain ⟨p, hp, rfl⟩ := List.mem_map.mp hop
    exact (alignBlocks_matched key input output).inputs p hp
  have hinLeft : inLeftOrder key input output =
      input.blockOps.filter fun op => op ∉ (alignBlocks key input output).pairs.map Prod.fst := by
    rw [inLeftOrder, alignBlocks_inUsed]
  have hrest : ((alignLeftovers key input output).taken ++
      (align key input output).deleted).Perm (inLeftOrder key input output) :=
    perm_append_filter_notMem hleft.nodup hleft.subset (input.nodup_blockOps.filter _)
  have hall := perm_append_filter_notMem hused hsub input.nodup_blockOps
  rw [← hinLeft] at hall
  have hpairs : (align key input output).pairs.map Prod.fst =
      (alignBlocks key input output).pairs.map Prod.fst ++
        (alignLeftovers key input output).pairs.map Prod.fst := List.map_append
  rw [hpairs, List.append_assoc]
  exact (((hleft.perm.append_right _).trans hrest).append_left _).trans hall

theorem align_keys {p : Ptr × Ptr} (hp : p ∈ (align key input output).pairs) :
    key (input.attrs p.1) = key (output.attrs p.2) := by
  rcases List.mem_append.mp hp with hp | hp
  · rw [alignBlocks_pairs] at hp
    obtain ⟨block, hblock, hp⟩ := List.mem_flatMap.mp hp
    obtain ⟨label, ins, -, -, hp⟩ := matchedBlocks_of_mem key input output hblock hp
    exact (blockPairs_mem key hp).2.2
  · exact (alignLeftovers_sound key input output).keys p hp

/-! ## What stands between pairs -/

/-- The ops `midIn` and `midOut` of two blocks stand between the same two
    neighbours: each end of theirs is that of both blocks or next to a pair, and
    no pair is among them. -/
def Between (pairs : List (Ptr × Ptr)) (ins outs midIn midOut : List Ptr) : Prop :=
  ∃ preIn postIn preOut postOut,
    ins = preIn ++ midIn ++ postIn ∧ outs = preOut ++ midOut ++ postOut ∧
    (preIn = [] ∧ preOut = [] ∨
      ∃ p ∈ pairs, preIn.getLast? = some p.1 ∧ preOut.getLast? = some p.2) ∧
    (postIn = [] ∧ postOut = [] ∨
      ∃ p ∈ pairs, postIn.head? = some p.1 ∧ postOut.head? = some p.2) ∧
    ∀ p ∈ pairs, p.1 ∉ midIn ∧ p.2 ∉ midOut

/-- The same of index pairs: from `s` and `t` up to `e` and `u`, of `n` and
    `m`. -/
structure BetweenIndices (pairs : List (Nat × Nat)) (n m s t e u : Nat) : Prop where
  inputs : s ≤ e ∧ e ≤ n
  outputs : t ≤ u ∧ u ≤ m
  before : s = 0 ∧ t = 0 ∨ ∃ q ∈ pairs, s = q.1 + 1 ∧ t = q.2 + 1
  after : e = n ∧ u = m ∨ ∃ q ∈ pairs, e = q.1 ∧ u = q.2
  others : ∀ q ∈ pairs, (q.1 < s ∧ q.2 < t) ∨ (e ≤ q.1 ∧ u ≤ q.2)

theorem Ascending.le {n m : Nat} : ∀ {pairs : List (Nat × Nat)} {i j : Nat},
    Ascending n m i j pairs → ∀ q ∈ pairs, i ≤ q.1 ∧ j ≤ q.2
  | p :: rest, i, j, h, q, hq => by
    obtain ⟨hi, -, hj, -, hrest⟩ := h
    rcases List.mem_cons.mp hq with rfl | hq
    · exact ⟨hi, hj⟩
    · have hle := hrest.le q hq
      omega

/-- Every gap from `i` and `o` on, when the pairs before are `all` but the
    `matched` ones. -/
theorem mem_gapsOf {ins outs : List Ptr} {all : List (Nat × Nat)} {gap : Replacement} :
    ∀ {matched : List (Nat × Nat)} {i o : Nat}, Ascending ins.length outs.length i o matched →
    i ≤ ins.length → o ≤ outs.length →
    (∀ q ∈ all, q ∈ matched ∨ q.1 < i ∧ q.2 < o) → matched ⊆ all →
    (i = 0 ∧ o = 0 ∨ ∃ q ∈ all, i = q.1 + 1 ∧ o = q.2 + 1) →
    gap ∈ gapsOf ins outs i o (matched ++ [(ins.length, outs.length)]) →
    ∃ s t e u, gap = (slice ins s e, slice outs t u) ∧
      BetweenIndices all ins.length outs.length s t e u
  | [], i, o, _, hi, ho, hall, _, hstart, hgap => by
    rw [List.nil_append, gapsOf, gapsOf, List.mem_singleton] at hgap
    refine ⟨i, o, ins.length, outs.length, hgap, ⟨hi, le_refl _⟩, ⟨ho, le_refl _⟩, hstart,
      Or.inl ⟨rfl, rfl⟩, fun q hq => ?_⟩
    rcases hall q hq with hq | hq
    · exact absurd hq List.not_mem_nil
    · exact Or.inl hq
  | p :: matched, i, o, hascending, hi, ho, hall, hsub, hstart, hgap => by
    obtain ⟨hip, hpn, hop, hpm, hrest⟩ := hascending
    rw [List.cons_append, gapsOf] at hgap
    rcases List.mem_cons.mp hgap with rfl | hgap
    · refine ⟨i, o, p.1, p.2, rfl, ⟨hip, by omega⟩, ⟨hop, by omega⟩, hstart,
        Or.inr ⟨p, hsub List.mem_cons_self, rfl, rfl⟩, fun q hq => ?_⟩
      rcases hall q hq with hq | hq
      · rcases List.mem_cons.mp hq with rfl | hq
        · exact Or.inr ⟨le_refl _, le_refl _⟩
        · have hle := hrest.le q hq
          exact Or.inr ⟨by omega, by omega⟩
      · exact Or.inl hq
    · apply mem_gapsOf hrest hpn hpm _ (List.cons_subset.mp hsub).2 _ hgap
      · intro q hq
        rcases hall q hq with hq | hq
        · rcases List.mem_cons.mp hq with rfl | hq
          · exact Or.inr ⟨by omega, by omega⟩
          · exact Or.inl hq
        · exact Or.inr ⟨by omega, by omega⟩
      · exact Or.inr ⟨p, hsub List.mem_cons_self, rfl, rfl⟩

theorem eq_append_slice {ops : List Ptr} {s e : Nat} (h : s ≤ e) :
    ops = ops.take s ++ slice ops s e ++ ops.drop e := by
  have hrest : slice ops s e ++ ops.drop e = ops.drop s := by
    have hdrop : ops.drop e = (ops.drop s).drop (e - s) := by
      rw [List.drop_drop]
      congr 1
      omega
    rw [hdrop]
    exact List.take_append_drop _ _
  rw [List.append_assoc, hrest, List.take_append_drop]

theorem getD_notMem_slice {ops : List Ptr} (hnodup : ops.Nodup) {s e i : Nat} (hi : i < ops.length)
    (h : i < s ∨ e ≤ i) : ops.getD i 0 ∉ slice ops s e := by
  intro hmem
  obtain ⟨k, hk, heq⟩ := List.mem_iff_getElem.mp hmem
  have hlen := hk
  rw [slice, List.length_take, List.length_drop] at hlen
  simp only [slice] at heq
  rw [List.getElem_take, List.getElem_drop, ← List.getElem_eq_getD (h := hi) 0,
    hnodup.getElem_inj_iff] at heq
  omega

/-- Ops between index pairs are between the pairs of ops there. -/
theorem BetweenIndices.between {pairs : List (Nat × Nat)} {ins outs : List Ptr} {s t e u : Nat}
    (h : BetweenIndices pairs ins.length outs.length s t e u) (hins : ins.Nodup)
    (houts : outs.Nodup) (hbound : ∀ q ∈ pairs, q.1 < ins.length ∧ q.2 < outs.length) :
    Between (pairs.map fun q => (ins.getD q.1 0, outs.getD q.2 0)) ins outs (slice ins s e)
      (slice outs t u) := by
  have hlast : ∀ {ops : List Ptr} {i : Nat}, i < ops.length →
      (ops.take (i + 1)).getLast? = some (ops.getD i 0) := by
    intro ops i hi
    rw [List.getLast?_take, if_neg (Nat.succ_ne_zero i), Nat.add_sub_cancel,
      List.getElem?_eq_getElem hi, ← List.getElem_eq_getD (h := hi) 0]
    rfl
  have hhead : ∀ {ops : List Ptr} {i : Nat}, i < ops.length →
      (ops.drop i).head? = some (ops.getD i 0) := by
    intro ops i hi
    rw [List.head?_drop, List.getElem?_eq_getElem hi, ← List.getElem_eq_getD (h := hi) 0]
  refine ⟨ins.take s, ins.drop e, outs.take t, outs.drop u, eq_append_slice h.inputs.1,
    eq_append_slice h.outputs.1, ?_, ?_, ?_⟩
  · rcases h.before with ⟨rfl, rfl⟩ | ⟨q, hq, rfl, rfl⟩
    · exact Or.inl ⟨rfl, rfl⟩
    · exact Or.inr ⟨_, List.mem_map_of_mem hq, hlast (hbound q hq).1, hlast (hbound q hq).2⟩
  · rcases h.after with ⟨rfl, rfl⟩ | ⟨q, hq, rfl, rfl⟩
    · exact Or.inl ⟨List.drop_length, List.drop_length⟩
    · exact Or.inr ⟨_, List.mem_map_of_mem hq, hhead (hbound q hq).1, hhead (hbound q hq).2⟩
  · intro p hp
    obtain ⟨q, hq, rfl⟩ := List.mem_map.mp hp
    have hother := h.others q hq
    exact ⟨getD_notMem_slice hins (hbound q hq).1 (hother.imp And.left And.left),
      getD_notMem_slice houts (hbound q hq).2 (hother.imp And.right And.right)⟩

/-- And every stretch from a start of these on is listed: where it starts right
    after a pair, or after all before, and ends at one, or at both ends, with no
    pair in it. -/
theorem slice_mem_gapsOf {ins outs : List Ptr} {s t e u : Nat} (hse : s ≤ e) :
    ∀ {matched : List (Nat × Nat)} {i o : Nat}, Ascending ins.length outs.length i o matched →
    (s = i ∧ t = o ∨ ∃ q ∈ matched, s = q.1 + 1 ∧ t = q.2 + 1) →
    (e = ins.length ∧ u = outs.length ∨ ∃ q ∈ matched, e = q.1 ∧ u = q.2) →
    (∀ q ∈ matched, q.1 < s ∨ e ≤ q.1) →
    (slice ins s e, slice outs t u) ∈ gapsOf ins outs i o (matched ++ [(ins.length, outs.length)])
  | [], i, o, _, hstart, hstop, _ => by
    obtain ⟨rfl, rfl⟩ := hstart.resolve_right (by simp)
    obtain ⟨rfl, rfl⟩ := hstop.resolve_right (by simp)
    exact List.mem_cons_self
  | p :: matched, i, o, hascending, hstart, hstop, hothers => by
    obtain ⟨hip, hpn, hop, hpm, hrest⟩ := hascending
    have hp := hothers p List.mem_cons_self
    rw [List.cons_append, gapsOf]
    -- Past the first pair, or it is the end of the stretch.
    have hpast : (s = p.1 + 1 ∧ t = p.2 + 1 ∨ ∃ q ∈ matched, s = q.1 + 1 ∧ t = q.2 + 1) →
        (slice ins s e, slice outs t u) ∈ gapsOf ins outs (p.1 + 1) (p.2 + 1)
          (matched ++ [(ins.length, outs.length)]) := by
      intro hstart
      have hps : p.1 < s := by
        rcases hstart with ⟨rfl, -⟩ | ⟨q, hq, rfl, -⟩
        · omega
        · have hle := (hrest.le q hq).1
          omega
      refine slice_mem_gapsOf hse hrest hstart ?_ fun q hq =>
        hothers q (List.mem_cons_of_mem _ hq)
      rcases hstop with hend | ⟨q, hq, rfl, rfl⟩
      · exact Or.inl hend
      · rcases List.mem_cons.mp hq with rfl | hq
        · omega
        · exact Or.inr ⟨q, hq, rfl, rfl⟩
    rcases hstart with ⟨rfl, rfl⟩ | ⟨q, hq, hs⟩
    · rcases hstop with ⟨rfl, rfl⟩ | ⟨q, hq, rfl, rfl⟩
      · omega
      · rcases List.mem_cons.mp hq with rfl | hq
        · exact List.mem_cons_self
        · have hle := (hrest.le q hq).1
          omega
    · apply List.mem_cons_of_mem
      rcases List.mem_cons.mp hq with rfl | hq
      · exact hpast (Or.inl hs)
      · exact hpast (Or.inr ⟨q, hq, hs⟩)

theorem length_of_getLast? {front back : List Ptr} (hnodup : (front ++ back).Nodup) {i : Nat}
    (hi : i < (front ++ back).length)
    (h : front.getLast? = some ((front ++ back).getD i 0)) : front.length = i + 1 := by
  rw [List.getLast?_eq_getElem?] at h
  obtain ⟨hlt, heq⟩ := List.getElem?_eq_some_iff.mp h
  have happend : (front ++ back)[front.length - 1]? = some front[front.length - 1] := by
    rw [List.getElem?_append_left hlt, List.getElem?_eq_getElem hlt]
  obtain ⟨hlt', heq'⟩ := List.getElem?_eq_some_iff.mp happend
  rw [← heq', ← List.getElem_eq_getD (h := hi) 0, hnodup.getElem_inj_iff] at heq
  omega

theorem length_of_head? {front back : List Ptr} (hnodup : (front ++ back).Nodup) {i : Nat}
    (hi : i < (front ++ back).length)
    (h : back.head? = some ((front ++ back).getD i 0)) : front.length = i := by
  rw [List.head?_eq_getElem?] at h
  obtain ⟨hlt, heq⟩ := List.getElem?_eq_some_iff.mp h
  have happend : (front ++ back)[front.length + 0]? = some back[0] := by
    rw [List.getElem?_append_right (Nat.le_add_right _ _), Nat.add_sub_cancel_left,
      List.getElem?_eq_getElem hlt]
  obtain ⟨hlt', heq'⟩ := List.getElem?_eq_some_iff.mp happend
  rw [← heq', ← List.getElem_eq_getD (h := hi) 0, hnodup.getElem_inj_iff] at heq
  omega

/-- The gaps of a block are all there is between its pairs. -/
theorem Between.mem_gapsOf {pairs : List (Nat × Nat)} {ins outs midIn midOut : List Ptr}
    (h : Between (pairs.map fun q => (ins.getD q.1 0, outs.getD q.2 0)) ins outs midIn midOut)
    (hins : ins.Nodup) (houts : outs.Nodup) (hpairs : Ascending ins.length outs.length 0 0 pairs) :
    (midIn, midOut) ∈ gapsOf ins outs 0 0 (pairs ++ [(ins.length, outs.length)]) := by
  obtain ⟨preIn, postIn, preOut, postOut, hin, hout, hbefore, hafter, hothers⟩ := h
  have hslice : ∀ front mid back : List Ptr,
      slice (front ++ mid ++ back) front.length (front ++ mid).length = mid := by
    intro front mid back
    simp [slice]
  have hmidIn := hslice preIn midIn postIn
  have hmidOut := hslice preOut midOut postOut
  rw [← hin] at hmidIn
  rw [← hout] at hmidOut
  have hbound : ∀ q ∈ pairs, q.1 < ins.length ∧ q.2 < outs.length :=
    fun q hq => ⟨hpairs.fst_lt q hq, hpairs.snd_lt q hq⟩
  rw [← hmidIn, ← hmidOut]
  refine slice_mem_gapsOf (by simp) hpairs ?_ ?_ ?_
  · rcases hbefore with ⟨rfl, rfl⟩ | ⟨p, hp, hlastIn, hlastOut⟩
    · exact Or.inl ⟨rfl, rfl⟩
    · obtain ⟨q, hq, rfl⟩ := List.mem_map.mp hp
      refine Or.inr ⟨q, hq, ?_, ?_⟩
      · rw [List.append_assoc] at hin
        exact length_of_getLast? (hin ▸ hins) (hin ▸ (hbound q hq).1) (hin ▸ hlastIn)
      · rw [List.append_assoc] at hout
        exact length_of_getLast? (hout ▸ houts) (hout ▸ (hbound q hq).2) (hout ▸ hlastOut)
  · rcases hafter with ⟨rfl, rfl⟩ | ⟨p, hp, hheadIn, hheadOut⟩
    · refine Or.inl ⟨?_, ?_⟩
      · rw [hin, List.append_nil]
      · rw [hout, List.append_nil]
    · obtain ⟨q, hq, rfl⟩ := List.mem_map.mp hp
      exact Or.inr ⟨q, hq, length_of_head? (hin ▸ hins) (hin ▸ (hbound q hq).1) (hin ▸ hheadIn),
        length_of_head? (hout ▸ houts) (hout ▸ (hbound q hq).2) (hout ▸ hheadOut)⟩
  · -- A pair in the stretch would have its op among `midIn`.
    intro q hq
    by_contra hinside
    rw [not_or, not_lt, not_le, List.length_append] at hinside
    apply (hothers _ (List.mem_map_of_mem hq)).1
    show ins.getD q.1 0 ∈ midIn
    rw [← List.getElem_eq_getD (h := (hbound q hq).1) 0]
    apply List.mem_of_getElem? (i := q.1 - preIn.length)
    have helem := List.getElem?_eq_getElem (hbound q hq).1
    rw [← helem, hin, List.append_assoc, List.getElem?_append_right hinside.1,
      List.getElem?_append_left (by omega)]

/-- The gaps of the first phase are between the pairs of their block. -/
theorem gaps_between (hin : input.DistinctLabels) {gap : Replacement}
    (hgap : gap ∈ (alignBlocks key input output).gaps) :
    ∃ label ins outs, MatchedBlocks input output label ins outs ∧
      Between (insideBlock (alignBlocks key input output).pairs ins outs) ins outs gap.1 gap.2 := by
  rw [alignBlocks_gaps] at hgap
  obtain ⟨block, hblock, hgap⟩ := List.mem_flatMap.mp hgap
  rw [gapsOfBlock] at hgap
  cases hfound : block.1.bind input.labelled with
  | none =>
    rw [hfound] at hgap
    exact absurd hgap List.not_mem_nil
  | some ins =>
    rw [hfound] at hgap
    obtain ⟨label, hlabel, hins⟩ := Option.bind_eq_some_iff.mp hfound
    have hmatched : MatchedBlocks input output label ins block.2 :=
      ⟨mem_blocks_of_labelled hins, hlabel ▸ hblock⟩
    have hascending := matching_ascending (ins.map fun op => key (input.attrs op))
      (block.2.map fun op => key (output.attrs op))
    rw [List.length_map, List.length_map] at hascending
    obtain ⟨s, t, e, u, rfl, hbetween⟩ := mem_gapsOf hascending (Nat.zero_le _) (Nat.zero_le _)
      (fun q hq => Or.inl hq) (List.Subset.refl _) (Or.inl ⟨rfl, rfl⟩) hgap
    refine ⟨label, ins, block.2, hmatched, ?_⟩
    rw [insideBlock_alignBlocks key input output hin hmatched]
    exact hbetween.between (nodup_block hmatched.input) (nodup_block hblock)
      fun q hq => ⟨hascending.fst_lt q hq, hascending.snd_lt q hq⟩

theorem mem_gaps_of_between (hin : input.DistinctLabels) {label : String}
    {ins outs midIn midOut : List Ptr} (hmatched : MatchedBlocks input output label ins outs)
    (h : Between (insideBlock (alignBlocks key input output).pairs ins outs) ins outs midIn
      midOut) : (midIn, midOut) ∈ (alignBlocks key input output).gaps := by
  rw [insideBlock_alignBlocks key input output hin hmatched] at h
  have hascending := matching_ascending (ins.map fun op => key (input.attrs op))
    (outs.map fun op => key (output.attrs op))
  rw [List.length_map, List.length_map] at hascending
  rw [alignBlocks_gaps]
  refine List.mem_flatMap.mpr ⟨_, hmatched.output, ?_⟩
  have hfound : (some label).bind input.labelled = some ins := labelled_of_mem hin hmatched.input
  rw [gapsOfBlock, hfound]
  exact h.mem_gapsOf (nodup_block hmatched.input) (nodup_block hmatched.output) hascending

/-! ## The alignment -/

/-- What an alignment is: a partition of both sides into pairs of equal keys,
    created and deleted ops, its pairs inside the blocks increasing and as many
    as can be when the first phase has made them, and its replacements what is
    left over between two of these. -/
structure Aligned (alignment : Alignment) : Prop where
  outputs : (alignment.pairs.map Prod.snd ++ alignment.created).Perm output.blockOps
  inputs : (alignment.pairs.map Prod.fst ++ alignment.deleted).Perm input.blockOps
  keys : ∀ p ∈ alignment.pairs, key (input.attrs p.1) = key (output.attrs p.2)
  blocks : ∀ label ins outs, MatchedBlocks input output label ins outs →
    BlockAligned key input output (alignBlocks key input output).pairs ins outs
  inside : ∀ p ∈ (alignBlocks key input output).pairs, p ∈ alignment.pairs ∧
    ∃ label ins outs, MatchedBlocks input output label ins outs ∧ p.1 ∈ ins ∧ p.2 ∈ outs
  replaced : ∀ r ∈ alignment.replaced, ∃ label ins outs midIn midOut,
    MatchedBlocks input output label ins outs ∧
    Between (insideBlock (alignBlocks key input output).pairs ins outs) ins outs midIn midOut ∧
    r = (midIn.filter fun op => op ∈ alignment.deleted,
      midOut.filter fun op => op ∈ alignment.created)
  replaces : ∀ label ins outs midIn midOut, MatchedBlocks input output label ins outs →
    Between (insideBlock (alignBlocks key input output).pairs ins outs) ins outs midIn midOut →
    (∃ op ∈ midIn, op ∈ alignment.deleted) → (∃ op ∈ midOut, op ∈ alignment.created) →
    (midIn.filter fun op => op ∈ alignment.deleted,
      midOut.filter fun op => op ∈ alignment.created) ∈ alignment.replaced

theorem align_aligned (hin : input.DistinctLabels) (hout : output.DistinctLabels) :
    Aligned key input output (align key input output) where
  outputs := align_outputs key input output
  inputs := align_inputs key input output hout
  keys _ := align_keys key input output
  blocks _ _ _ := blockAligned_alignBlocks key input output hin
  inside := by
    intro p hp
    refine ⟨List.mem_append_left _ hp, ?_⟩
    rw [alignBlocks_pairs] at hp
    obtain ⟨block, hblock, hp⟩ := List.mem_flatMap.mp hp
    obtain ⟨label, ins, -, hmatched, hp⟩ := matchedBlocks_of_mem key input output hblock hp
    have hmem := blockPairs_mem key hp
    exact ⟨label, ins, block.2, hmatched, hmem.1, hmem.2.1⟩
  replaced := by
    intro r hr
    obtain ⟨gap, hgap, rfl⟩ := List.mem_map.mp (List.mem_of_mem_filter hr)
    obtain ⟨label, ins, outs, hmatched, hbetween⟩ := gaps_between key input output hin hgap
    exact ⟨label, ins, outs, gap.1, gap.2, hmatched, hbetween, rfl⟩
  replaces := by
    intro label ins outs midIn midOut hmatched hbetween hdeleted hcreated
    have hgap := mem_gaps_of_between key input output hin hmatched hbetween
    refine List.mem_filter.mpr ⟨List.mem_map.mpr ⟨_, hgap, rfl⟩, ?_⟩
    obtain ⟨i, hi, hdel⟩ := hdeleted
    obtain ⟨o, ho, hcr⟩ := hcreated
    have hleft : (midIn.filter fun op => op ∈ (align key input output).deleted) ≠ [] :=
      List.ne_nil_of_mem (List.mem_filter.mpr ⟨hi, decide_eq_true hdel⟩)
    have hright : (midOut.filter fun op => op ∈ (align key input output).created) ≠ [] :=
      List.ne_nil_of_mem (List.mem_filter.mpr ⟨ho, decide_eq_true hcr⟩)
    rw [Bool.and_eq_true, Bool.not_eq_true', Bool.not_eq_true', List.isEmpty_eq_false_iff,
      List.isEmpty_eq_false_iff]
    exact ⟨hleft, hright⟩

end Align

/-- A function of one block with two ops, `first` before `second`. -/
def twoOps (self first second : Ptr) (distinct : [self, first, second].Nodup)
    (opid : Ptr → String) : Func where
  text := ""
  self := self
  blocks := [(some "entry", [first, second])]
  nested _ := []
  attrs op := { opid := opid op }
  nodup := distinct

/-- What the parity of a number spells. -/
def parityId (op : Ptr) : String := if op % 2 = 1 then "odd" else "even"

theorem align_aligned_twoOps :
    Aligned OpAttrs.opid (twoOps 0 1 2 (by decide) parityId) (twoOps 0 3 4 (by decide) parityId)
      (align OpAttrs.opid (twoOps 0 1 2 (by decide) parityId)
        (twoOps 0 3 4 (by decide) parityId)) :=
  align_aligned _ _ _ (by decide) (by decide)

/-- Where a pass swaps two ops, the second phase pairs what the first one had
    to leave out, so not all pairs inside the block are in order. -/
theorem align_swapped : ¬ ∀ (key : OpAttrs → String) (input output : Func),
    input.DistinctLabels → output.DistinctLabels → ∀ label ins outs,
      MatchedBlocks input output label ins outs →
      BlockAligned key input output (align key input output).pairs ins outs := by
  intro h
  have hblock := h OpAttrs.opid (twoOps 0 1 2 (by decide) parityId)
    (twoOps 0 4 3 (by decide) parityId) (by decide) (by decide) "entry" [1, 2] [4, 3]
    ⟨List.mem_singleton.mpr rfl, List.mem_singleton.mpr rfl⟩
  exact absurd hblock.inputs (by decide)

end Crabbit.Bpgo
