/-
  Crabbit.Bpgo.Align

  Matching a function's ops before and after a pass: blocks with the same
  label first, by a longest common subsequence of keys, then what is left
  over across the whole function, in order.

  A pass hands costs over the alignment, so what matters of it is that no
  op of the output is lost or listed twice (`align_outputs`) and that
  whatever it names on the other side is an op of the input
  (`align_input_mem`, `deleted_mem`, `replacedBy_mem`).
-/

import Crabbit.Bpgo.Profile
import Mathlib.Data.List.Perm.Basic
import Mathlib.Data.List.Nodup

namespace Crabbit.Bpgo

/-! ## Functions of a snapshot -/

/-- What the forward passes recorded on an op. -/
structure OpAttrs where
  opid : String
  opId : Option Nat := none
  derivedFrom : Option Int := none
  derivedFromMany : Option (List Int) := none
  inlinedFrom : Option Int := none

/-- A function of a parsed snapshot. `nested op` are the ops in the regions
    of `op` itself, in program order; `carried` is what its text already
    carries as a profile. -/
structure Func where
  text : String
  self : Ptr
  blocks : List (Option String × List Ptr)
  nested : Ptr → List Ptr := fun _ => []
  attrs : Ptr → OpAttrs
  carried : Profile := fun _ => none
  nodup : (self :: (blocks.flatMap fun block =>
    block.2.flatMap fun op => op :: nested op)).Nodup

namespace Func

/-- The ops of the function's own blocks. -/
def blockOps (f : Func) : List Ptr := f.blocks.flatMap Prod.snd

/-- Every op below the function, in program order. -/
def inner (f : Func) : List Ptr :=
  f.blocks.flatMap fun block => block.2.flatMap fun op => op :: f.nested op

/-- Every op under the function, itself included. -/
def opsUnder (f : Func) : List Ptr := f.self :: f.inner

theorem nodup_opsUnder (f : Func) : f.opsUnder.Nodup := f.nodup

theorem nodup_inner (f : Func) : f.inner.Nodup := (List.nodup_cons.mp f.nodup).2

theorem blockOps_sublist_inner (f : Func) : f.blockOps.Sublist f.inner := by
  have hops : ∀ ops : List Ptr, ops.Sublist (ops.flatMap fun op => op :: f.nested op) := by
    intro ops
    induction ops with
    | nil => exact List.Sublist.slnil
    | cons op rest ih =>
        rw [List.flatMap_cons, List.cons_append]
        exact (ih.trans (List.sublist_append_right _ _)).cons_cons op
  unfold blockOps inner
  induction f.blocks with
  | nil => exact List.Sublist.slnil
  | cons block rest ih =>
      rw [List.flatMap_cons, List.flatMap_cons]
      exact (hops block.2).append ih

theorem mem_inner_of_mem_blockOps {f : Func} {op : Ptr} (h : op ∈ f.blockOps) :
    op ∈ f.inner :=
  f.blockOps_sublist_inner.subset h

theorem mem_opsUnder_of_mem_inner {f : Func} {op : Ptr} (h : op ∈ f.inner) :
    op ∈ f.opsUnder :=
  List.mem_cons_of_mem _ h

theorem nodup_blockOps (f : Func) : f.blockOps.Nodup :=
  f.nodup_inner.sublist f.blockOps_sublist_inner

/-- The ops of the block with a label; of several, the last one listed. -/
def labelled (f : Func) (label : String) : Option (List Ptr) :=
  ((f.blocks.filter fun block => block.1 == some label).getLast?).map Prod.snd

theorem mem_blockOps_of_labelled {f : Func} {label : String} {ops : List Ptr}
    (h : f.labelled label = some ops) {op : Ptr} (hop : op ∈ ops) : op ∈ f.blockOps := by
  obtain ⟨block, hblock, rfl⟩ := Option.map_eq_some_iff.mp h
  have hmem := List.mem_of_mem_filter (List.mem_of_getLast? hblock)
  exact List.mem_flatMap.mpr ⟨block, hmem, hop⟩

end Func

/-! ## Equal keys, in order -/

/-- Above this many key comparisons a block is matched greedily. -/
def LCS_LIMIT : Nat := 4000000

/-- A row of the table, from the row below it: the entry of `key` against
    every suffix of `b`. -/
def dpRow (key : String) : List String → List Nat → List Nat
  | k :: b, below :: next =>
      let row := dpRow key b next
      (if key = k then next.headD 0 + 1 else max below (row.headD 0)) :: row
  | _, _ => [0]

/-- The lengths of the longest common subsequences of all suffixes. -/
def dpTable (b : List String) : List String → List (List Nat)
  | [] => [List.replicate (b.length + 1) 0]
  | key :: a => dpRow key b ((dpTable b a).headD []) :: dpTable b a

/-- Reading the pairs off the table; every step moves `i` or `j` on. -/
def readPairs (a b : List String) (dp : List (List Nat)) :
    Nat → Nat → Nat → List (Nat × Nat)
  | 0, _, _ => []
  | fuel + 1, i, j =>
      if i < a.length ∧ j < b.length then
        if a[i]? = b[j]? then (i, j) :: readPairs a b dp fuel (i + 1) (j + 1)
        else if (dp.getD (i + 1) []).getD j 0 ≥ (dp.getD i []).getD (j + 1) 0 then
          readPairs a b dp fuel (i + 1) j
        else readPairs a b dp fuel i (j + 1)
      else []

/-- The greedy match: `i` and `j` are where the rest of `a` and of `b` start. -/
def greedyPairs (b : List String) : List String → Nat → Nat → List (Nat × Nat)
  | [], _, _ => []
  | key :: a, i, j =>
      match (b.drop j).findIdx? (· == key) with
      | some off => (i, j + off) :: greedyPairs b a (i + 1) (j + off + 1)
      | none => greedyPairs b a (i + 1) j

/-- Pairs `(i, o)` of equal keys, in order. -/
def matching (a b : List String) : List (Nat × Nat) :=
  if a.length * b.length > LCS_LIMIT then greedyPairs b a 0 0
  else readPairs a b (dpTable b a) (a.length + b.length) 0 0

/-- Index pairs that increase on both sides, from `i` and `j` on, below `n`
    and `m`. -/
def Ascending (n m : Nat) : Nat → Nat → List (Nat × Nat) → Prop
  | _, _, [] => True
  | i, j, p :: rest =>
      i ≤ p.1 ∧ p.1 < n ∧ j ≤ p.2 ∧ p.2 < m ∧ Ascending n m (p.1 + 1) (p.2 + 1) rest

theorem Ascending.mono {n m i j i' j' : Nat} {pairs : List (Nat × Nat)}
    (h : Ascending n m i' j' pairs) (hi : i ≤ i') (hj : j ≤ j') :
    Ascending n m i j pairs := by
  cases pairs with
  | nil => trivial
  | cons p rest =>
      obtain ⟨h1, h2, h3, h4, h5⟩ := h
      exact ⟨by omega, h2, by omega, h4, h5⟩

theorem readPairs_ascending (a b : List String) (dp : List (List Nat)) :
    ∀ fuel i j, Ascending a.length b.length i j (readPairs a b dp fuel i j) := by
  intro fuel
  induction fuel with
  | zero => exact fun i j => trivial
  | succ fuel ih =>
      intro i j
      rw [readPairs]
      split
      · rename_i hin
        split
        · exact ⟨le_refl i, hin.1, le_refl j, hin.2, ih (i + 1) (j + 1)⟩
        · split
          · exact (ih (i + 1) j).mono (by omega) (le_refl j)
          · exact (ih i (j + 1)).mono (le_refl i) (by omega)
      · trivial

theorem greedyPairs_ascending (b : List String) :
    ∀ a i j, Ascending (i + a.length) b.length i j (greedyPairs b a i j) := by
  intro a
  induction a with
  | nil => exact fun i j => trivial
  | cons key a ih =>
      intro i j
      have hlen : i + (key :: a).length = i + 1 + a.length := by
        rw [List.length_cons]
        omega
      rw [greedyPairs, hlen]
      split
      · rename_i off hoff
        have hlt : off < (b.drop j).length := (List.findIdx?_eq_some_iff_getElem.mp hoff).1
        rw [List.length_drop] at hlt
        exact ⟨le_refl i, by omega, by omega, by omega, ih (i + 1) (j + off + 1)⟩
      · exact (ih (i + 1) j).mono (by omega) (le_refl j)

theorem matching_ascending (a b : List String) :
    Ascending a.length b.length 0 0 (matching a b) := by
  unfold matching
  split
  · have h := greedyPairs_ascending b a 0 0
    rwa [Nat.zero_add] at h
  · exact readPairs_ascending a b _ _ 0 0

/-- The ops at ascending indices are a part of the list, in its order. -/
theorem Ascending.sublist {n : Nat} {ops : List Ptr} :
    ∀ {pairs : List (Nat × Nat)} {i j : Nat}, Ascending n ops.length i j pairs →
      (pairs.map fun p => ops.getD p.2 0).Sublist (ops.drop j)
  | [], _, _, _ => List.nil_sublist _
  | p :: rest, i, j, h => by
      obtain ⟨-, -, hj, hlt, hrest⟩ := h
      have hcons : ops.drop p.2 = ops.getD p.2 0 :: ops.drop (p.2 + 1) := by
        rw [List.drop_eq_getElem_cons hlt, ← List.getElem_eq_getD 0]
      have hhere : (ops.getD p.2 0 :: rest.map fun p => ops.getD p.2 0).Sublist
          (ops.drop p.2) := by
        rw [hcons]
        exact hrest.sublist.cons_cons _
      exact hhere.trans (List.drop_sublist_drop_left ops hj)

theorem Ascending.fst_lt {n m : Nat} :
    ∀ {pairs : List (Nat × Nat)} {i j : Nat}, Ascending n m i j pairs →
      ∀ p ∈ pairs, p.1 < n
  | p :: rest, _, _, h, q, hq => by
      obtain ⟨-, hlt, -, -, hrest⟩ := h
      rcases List.mem_cons.mp hq with rfl | hq
      · exact hlt
      · exact hrest.fst_lt q hq

/-! ## The alignment -/

/-- Deleted input ops and the created output ops in their place. -/
abbrev Replacement := List Ptr × List Ptr

/-- The ops of a function before and after a pass, matched up. -/
structure Alignment where
  /-- `(input, output)`: the same op on both sides. -/
  pairs : List (Ptr × Ptr)
  created : List Ptr
  deleted : List Ptr
  replaced : List Replacement

/-- The deleted ops that `created` stands in place of, if any. -/
def Alignment.replacedBy (alignment : Alignment) (created : Ptr) : List Ptr :=
  ((alignment.replaced.find? fun r => r.2.contains created).map Prod.fst).getD []

/-- `ops[start..stop]`. -/
def slice (ops : List Ptr) (start stop : Nat) : List Ptr :=
  (ops.drop start).take (stop - start)

/-- What stands between matched ops on both sides. -/
def gapsOf (ins outs : List Ptr) : Nat → Nat → List (Nat × Nat) → List Replacement
  | _, _, [] => []
  | i, o, p :: rest =>
      (slice ins i p.1, slice outs o p.2) :: gapsOf ins outs (p.1 + 1) (p.2 + 1) rest

/-- What the walk over the output's blocks has gathered. -/
structure Matched where
  /-- The input ops already matched. -/
  inUsed : List Ptr := []
  outLeft : List Ptr := []
  pairs : List (Ptr × Ptr) := []
  gaps : List Replacement := []

section Align

variable (key : OpAttrs → String) (input output : Func)

/-- The matched pairs of one block. -/
def blockPairs (ins outs : List Ptr) : List (Ptr × Ptr) :=
  (matching (ins.map fun op => key (input.attrs op))
    (outs.map fun op => key (output.attrs op))).map
      fun p => (ins.getD p.1 0, outs.getD p.2 0)

/-- One block of the output against the block of the input with its label. -/
def alignBlock (st : Matched) (block : Option String × List Ptr) : Matched :=
  match block.1.bind input.labelled with
  | none => { st with outLeft := st.outLeft ++ block.2 }
  | some ins =>
      let matched := matching (ins.map fun op => key (input.attrs op))
        (block.2.map fun op => key (output.attrs op))
      let pairs := blockPairs key input output ins block.2
      { inUsed := st.inUsed ++ pairs.map Prod.fst
        outLeft := st.outLeft ++ block.2.filter fun op => op ∉ pairs.map Prod.snd
        pairs := st.pairs ++ pairs
        gaps := st.gaps ++ gapsOf ins block.2 0 0 (matched ++ [(ins.length, block.2.length)]) }

def alignBlocks : Matched := output.blocks.foldl (alignBlock key input output) {}

/-- What the leftovers of the output have taken so far. -/
structure Leftovers where
  taken : List Ptr := []
  pairs : List (Ptr × Ptr) := []
  created : List Ptr := []

/-- One leftover of the output: the first leftover of the input with its key
    that is not taken yet. -/
def takeLeftover (inLeft : List Ptr) (st : Leftovers) (op : Ptr) : Leftovers :=
  match inLeft.find? fun i =>
      key (input.attrs i) == key (output.attrs op) && !st.taken.contains i with
  | some i => { st with taken := i :: st.taken, pairs := st.pairs ++ [(i, op)] }
  | none => { st with created := st.created ++ [op] }

/-- The input ops no block matched, in order. -/
def inLeftOrder : List Ptr :=
  input.blockOps.filter fun op => op ∉ (alignBlocks key input output).inUsed

/-- The leftovers of both sides, across the function. -/
def alignLeftovers : Leftovers :=
  (alignBlocks key input output).outLeft.foldl
    (takeLeftover key input output (inLeftOrder key input output)) {}

/-- Match the ops of the function `output` to those of `input` by `key`. -/
def align : Alignment :=
  let blocks := alignBlocks key input output
  let left := alignLeftovers key input output
  let deleted := (inLeftOrder key input output).filter fun op => op ∉ left.taken
  { pairs := blocks.pairs ++ left.pairs
    created := left.created
    deleted := deleted
    replaced := (blocks.gaps.map fun gap =>
      (gap.1.filter fun op => op ∈ deleted, gap.2.filter fun op => op ∈ left.created)).filter
        fun r => !r.1.isEmpty && !r.2.isEmpty }

/-! ## What an alignment lists -/

theorem blockPairs_snd_sublist (ins outs : List Ptr) :
    ((blockPairs key input output ins outs).map Prod.snd).Sublist outs := by
  have h := matching_ascending (ins.map fun op => key (input.attrs op))
    (outs.map fun op => key (output.attrs op))
  rw [List.length_map, List.length_map] at h
  have hsub : (_ : List Ptr).Sublist (outs.drop 0) := h.sublist
  rw [List.drop_zero] at hsub
  rw [blockPairs, List.map_map]
  exact hsub

theorem blockPairs_fst_mem {ins outs : List Ptr} {p : Ptr × Ptr}
    (hp : p ∈ blockPairs key input output ins outs) : p.1 ∈ ins := by
  have h := matching_ascending (ins.map fun op => key (input.attrs op))
    (outs.map fun op => key (output.attrs op))
  obtain ⟨q, hq, rfl⟩ := List.mem_map.mp hp
  have hlt := h.fst_lt q hq
  rw [List.length_map] at hlt
  show ins.getD q.1 0 ∈ ins
  rw [← List.getElem_eq_getD (h := hlt) 0]
  exact List.getElem_mem hlt

/-- A part of a list and what is not in the part make up the list. -/
theorem perm_append_filter_notMem {part ops : List Ptr} (hpart : part.Nodup)
    (hsub : part ⊆ ops) (hnd : ops.Nodup) :
    (part ++ ops.filter fun op => op ∉ part).Perm ops := by
  have hkept : (ops.filter fun op => op ∈ part).Perm part := by
    apply (List.perm_ext_iff_of_nodup (hnd.filter _) hpart).mpr
    intro op
    simp only [List.mem_filter, decide_eq_true_eq, and_iff_right_iff_imp]
    exact fun h => hsub h
  have hall := List.filter_append_perm (fun op => decide (op ∈ part)) ops
  refine (hkept.symm.append_right _).trans ?_
  simpa only [decide_not] using hall

/-- What holds after the blocks of a part of the output. -/
structure BlocksMatched (done : List (Option String × List Ptr)) (st : Matched) : Prop where
  outputs : (st.pairs.map Prod.snd ++ st.outLeft).Perm (done.flatMap Prod.snd)
  inputs : ∀ p ∈ st.pairs, p.1 ∈ input.blockOps

theorem alignBlock_matched {done : List (Option String × List Ptr)} {st : Matched}
    {block : Option String × List Ptr} (hnd : block.2.Nodup)
    (h : BlocksMatched input done st) :
    BlocksMatched input (done ++ [block]) (alignBlock key input output st block) := by
  have hdone : (done ++ [block]).flatMap Prod.snd = done.flatMap Prod.snd ++ block.2 := by
    simp
  unfold alignBlock
  split
  · refine ⟨?_, h.inputs⟩
    rw [hdone, ← List.append_assoc]
    exact h.outputs.append_right _
  · rename_i ins hins
    obtain ⟨label, -, hlabel⟩ := Option.bind_eq_some_iff.mp hins
    refine ⟨?_, ?_⟩
    · have hsub := blockPairs_snd_sublist key input output ins block.2
      have hblock := perm_append_filter_notMem (hnd.sublist hsub) hsub.subset hnd
      rw [hdone, List.map_append]
      -- The new pairs move over what was left before to their block's rest.
      refine List.Perm.trans ?_ (h.outputs.append hblock)
      rw [List.append_assoc, List.append_assoc]
      apply List.Perm.append_left
      rw [← List.append_assoc, ← List.append_assoc]
      exact List.perm_append_comm.append_right _
    · intro p hp
      rcases List.mem_append.mp hp with hp | hp
      · exact h.inputs p hp
      · exact Func.mem_blockOps_of_labelled hlabel
          (blockPairs_fst_mem key input output hp)

theorem foldl_alignBlock_matched :
    ∀ (blocks done : List (Option String × List Ptr)) (st : Matched),
      (∀ block ∈ blocks, block.2.Nodup) → BlocksMatched input done st →
        BlocksMatched input (done ++ blocks)
          (blocks.foldl (alignBlock key input output) st)
  | [], done, st, _, h => by simpa using h
  | block :: rest, done, st, hnd, h => by
      have hstep := alignBlock_matched key input output
        (hnd block List.mem_cons_self) h
      have hrun := foldl_alignBlock_matched rest _ _
        (fun b hb => hnd b (List.mem_cons_of_mem _ hb)) hstep
      rw [List.append_assoc] at hrun
      exact hrun

theorem alignBlocks_matched :
    BlocksMatched input output.blocks (alignBlocks key input output) := by
  have hnd : ∀ block ∈ output.blocks, block.2.Nodup := by
    intro block hblock
    exact (List.nodup_flatMap.mp output.nodup_blockOps).1 block hblock
  have h := foldl_alignBlock_matched key input output output.blocks [] {} hnd
    ⟨List.Perm.refl _, by simp⟩
  rwa [List.nil_append] at h

/-- What holds after a part of the leftovers. -/
structure LeftoversTaken (inLeft done : List Ptr) (st : Leftovers) : Prop where
  outputs : (st.pairs.map Prod.snd ++ st.created).Perm done
  inputs : ∀ p ∈ st.pairs, p.1 ∈ inLeft

theorem takeLeftover_taken {inLeft done : List Ptr} {st : Leftovers} (op : Ptr)
    (h : LeftoversTaken inLeft done st) :
    LeftoversTaken inLeft (done ++ [op]) (takeLeftover key input output inLeft st op) := by
  unfold takeLeftover
  split
  · rename_i i hi
    refine ⟨?_, ?_⟩
    · rw [List.map_append, List.append_assoc]
      refine List.Perm.trans ?_ (h.outputs.append_right [op])
      rw [List.append_assoc]
      exact List.Perm.append_left _ List.perm_append_comm
    · intro p hp
      rcases List.mem_append.mp hp with hp | hp
      · exact h.inputs p hp
      · rw [List.mem_singleton.mp hp]
        exact List.mem_of_find?_eq_some hi
  · refine ⟨?_, h.inputs⟩
    rw [← List.append_assoc]
    exact h.outputs.append_right [op]

theorem foldl_takeLeftover_taken (inLeft : List Ptr) :
    ∀ (ops done : List Ptr) (st : Leftovers), LeftoversTaken inLeft done st →
      LeftoversTaken inLeft (done ++ ops)
        (ops.foldl (takeLeftover key input output inLeft) st)
  | [], done, st, h => by simpa using h
  | op :: rest, done, st, h => by
      have hrun := foldl_takeLeftover_taken inLeft rest _ _
        (takeLeftover_taken key input output op h)
      rw [List.append_assoc] at hrun
      exact hrun

theorem alignLeftovers_taken :
    LeftoversTaken (inLeftOrder key input output) (alignBlocks key input output).outLeft
      (alignLeftovers key input output) := by
  have h := foldl_takeLeftover_taken key input output (inLeftOrder key input output)
    (alignBlocks key input output).outLeft [] {} ⟨List.Perm.refl _, by simp⟩
  rwa [List.nil_append] at h

/-- Every op of the output's blocks is matched or created, once. -/
theorem align_outputs :
    ((align key input output).pairs.map Prod.snd ++ (align key input output).created).Perm
      output.blockOps := by
  refine List.Perm.trans ?_ (alignBlocks_matched key input output).outputs
  simp only [align, List.map_append, List.append_assoc]
  exact List.Perm.append_left _ (alignLeftovers_taken key input output).outputs

theorem align_input_mem {p : Ptr × Ptr} (hp : p ∈ (align key input output).pairs) :
    p.1 ∈ input.blockOps := by
  rcases List.mem_append.mp hp with hp | hp
  · exact (alignBlocks_matched key input output).inputs p hp
  · exact List.mem_of_mem_filter ((alignLeftovers_taken key input output).inputs p hp)

theorem deleted_mem {op : Ptr} (h : op ∈ (align key input output).deleted) :
    op ∈ input.blockOps :=
  List.mem_of_mem_filter (List.mem_of_mem_filter h)

theorem replacedBy_mem {created op : Ptr}
    (h : op ∈ (align key input output).replacedBy created) : op ∈ input.blockOps := by
  unfold Alignment.replacedBy at h
  cases hfind : (align key input output).replaced.find?
      fun r => r.2.contains created with
  | none =>
      rw [hfind] at h
      exact absurd h List.not_mem_nil
  | some r =>
      rw [hfind] at h
      have hr := List.mem_of_mem_filter (List.mem_of_find?_eq_some hfind)
      obtain ⟨gap, -, rfl⟩ := List.mem_map.mp hr
      have hmem := (List.mem_filter.mp h).2
      exact deleted_mem key input output (of_decide_eq_true hmem)

end Align

end Crabbit.Bpgo
