/-
  Crabbit.Llvm.Availability

  Where a value of a function in SSA form is available: later in its block, or
  in the blocks its block dominates.
-/

import Crabbit.Lib.Dominance
import Crabbit.Llvm.Function

namespace Crabbit.Llvm

open Crabbit.Lib

namespace Region

variable (g : Region)

/-! ## Availability -/

def Edge (b d : Nat) : Prop := d ∈ g.succs b

/-- Control can get to the block. -/
abbrev Reached (b : Nat) : Prop := Reaches g.Edge 0 b

/-- After the operations `done` of block `b` the value was defined, whatever
    the way there. -/
def Available (b : Nat) (done : List Op) (v : Value) : Prop :=
  v ∈ (g.block b).params ∨ v ∈ done.flatMap Op.results ∨
    ∃ a, a ≠ b ∧ Dominates g.Edge 0 a b ∧ v ∈ (g.block a).defs

/-- Every operand is available where it is used. -/
def UsesDominated : Prop :=
  ∀ b done op rest, (g.block b).ops = done ++ op :: rest → g.Reached b →
    ∀ v ∈ op.operands, g.Available b done v

variable {g}

/-! ## Where a value is defined -/

theorem mem_defs_of_result {b : Nat} {done rest : List Op} {op : Op}
    (hops : (g.block b).ops = done ++ op :: rest) {v : Value} (hv : v ∈ op.results) :
    v ∈ (g.block b).defs := by
  apply List.mem_append_right
  rw [hops]
  exact List.mem_flatMap.mpr ⟨op, List.mem_append_right _ List.mem_cons_self, hv⟩

theorem mem_defs_of_done {b : Nat} {done rest : List Op} (hops : (g.block b).ops = done ++ rest)
    {v : Value} (hv : v ∈ done.flatMap Op.results) : v ∈ (g.block b).defs := by
  apply List.mem_append_right
  rw [hops, List.flatMap_append]
  exact List.mem_append_left _ hv

theorem lt_of_mem_defs {b : Nat} {v : Value} (hv : v ∈ (g.block b).defs) : b < g.blocks.length := by
  by_contra hb
  unfold BasicBlock.defs at hv
  rw [block_params_eq_nil hb, block_ops_eq_nil hb] at hv
  exact absurd hv List.not_mem_nil

theorem block_eq_getElem {b : Nat} (h : b < g.blocks.length) : g.block b = g.blocks[b] := by
  unfold block
  rw [List.getD_eq_getElem?_getD, List.getElem?_eq_getElem h]
  rfl

theorem Ssa.defs_nodup (h : g.Ssa) (b : Nat) : (g.block b).defs.Nodup := by
  by_cases hb : b < g.blocks.length
  · exact (List.nodup_flatMap.mp h.nodup).1 _ (block_mem hb)
  · unfold BasicBlock.defs
    rw [block_params_eq_nil hb, block_ops_eq_nil hb]
    exact List.nodup_nil

/-- A value is defined in one block. -/
theorem Ssa.block_unique (h : g.Ssa) {a b : Nat} {v : Value} (ha : v ∈ (g.block a).defs)
    (hb : v ∈ (g.block b).defs) : a = b := by
  have hdisjoint := List.pairwise_iff_getElem.mp (List.nodup_flatMap.mp h.nodup).2
  have hlta := lt_of_mem_defs ha
  have hltb := lt_of_mem_defs hb
  rw [block_eq_getElem hlta] at ha
  rw [block_eq_getElem hltb] at hb
  rcases Nat.lt_trichotomy a b with hlt | heq | hlt
  · exact absurd hb (hdisjoint a b hlta hltb hlt ha)
  · exact heq
  · exact absurd ha (hdisjoint b a hltb hlta hlt hb)

/-- And there not twice. -/
theorem Ssa.not_mem_done (h : g.Ssa) {b : Nat} {done rest : List Op} {op : Op}
    (hops : (g.block b).ops = done ++ op :: rest) {v : Value} (hv : v ∈ op.results) :
    v ∉ (g.block b).params ∧ v ∉ done.flatMap Op.results ∧ v ∉ rest.flatMap Op.results := by
  have hnodup := h.defs_nodup b
  unfold BasicBlock.defs at hnodup
  rw [hops, List.flatMap_append, List.flatMap_cons] at hnodup
  obtain ⟨-, hright, hparams⟩ := List.nodup_append.mp hnodup
  obtain ⟨-, hright, hdone⟩ := List.nodup_append.mp hright
  obtain ⟨-, -, hrest⟩ := List.nodup_append.mp hright
  have hmid : v ∈ op.results ++ rest.flatMap Op.results := List.mem_append_left _ hv
  refine ⟨fun hp => ?_, fun hd => ?_, fun hr => ?_⟩
  · exact hparams v hp v (List.mem_append_right _ hmid) rfl
  · exact hdone v hd v hmid rfl
  · exact hrest v hv v hr rfl

/-- The operation a value comes from has one place in its block. -/
theorem Ssa.split_unique (h : g.Ssa) {b : Nat} {done done' rest rest' : List Op} {op op' : Op}
    (hops : (g.block b).ops = done ++ op :: rest) (hops' : (g.block b).ops = done' ++ op' :: rest')
    {v : Value} (hv : v ∈ op.results) (hv' : v ∈ op'.results) :
    done = done' ∧ op = op' ∧ rest = rest' := by
  have hsplit := hops.symm.trans hops'
  rcases List.append_eq_append_iff.mp hsplit with ⟨mid, rfl, hmid⟩ | ⟨mid, rfl, hmid⟩
  · cases mid with
    | nil =>
      rw [List.nil_append] at hmid
      cases hmid
      exact ⟨(List.append_nil _).symm, rfl, rfl⟩
    | cons o mid =>
      cases hmid
      have := (h.not_mem_done hops' hv').2.1
      exact absurd (List.mem_flatMap.mpr ⟨op, by simp, hv⟩) this
  · cases mid with
    | nil =>
      rw [List.nil_append] at hmid
      cases hmid
      exact ⟨List.append_nil _, rfl, rfl⟩
    | cons o mid =>
      cases hmid
      have := (h.not_mem_done hops hv).2.1
      exact absurd (List.mem_flatMap.mpr ⟨op', by simp, hv'⟩) this

/-! ## Availability and dominance -/

theorem Available.append {b : Nat} {done : List Op} {v : Value} (h : g.Available b done v)
    (more : List Op) : g.Available b (done ++ more) v := by
  rcases h with h | h | h
  · exact Or.inl h
  · refine Or.inr (Or.inl ?_)
    rw [List.flatMap_append]
    exact List.mem_append_left _ h
  · exact Or.inr (Or.inr h)

/-- An operation makes its results available, and nothing else. -/
theorem Available.of_append {b : Nat} {done : List Op} {op : Op} {v : Value}
    (h : g.Available b (done ++ [op]) v) (hv : v ∉ op.results) : g.Available b done v := by
  rcases h with h | h | h
  · exact Or.inl h
  · rw [List.flatMap_append] at h
    rcases List.mem_append.mp h with h | h
    · exact Or.inr (Or.inl h)
    · rw [List.flatMap_cons, List.flatMap_nil, List.append_nil] at h
      exact absurd h hv
  · exact Or.inr (Or.inr h)

/-- No value is available before the operation that defines it. -/
theorem Ssa.not_available (h : g.Ssa) {b : Nat} {done rest : List Op} {op : Op}
    (hops : (g.block b).ops = done ++ op :: rest) {v : Value} (hv : v ∈ op.results) :
    ¬ g.Available b done v := by
  obtain ⟨hparams, hdone, -⟩ := h.not_mem_done hops hv
  rintro (hp | hd | ⟨a, hne, -, ha⟩)
  · exact hparams hp
  · exact hdone hd
  · exact hne (h.block_unique ha (mem_defs_of_result hops hv))

/-- What is available in a block is available in those it dominates. -/
theorem Available.below {a b : Nat} {done rest : List Op} {v : Value} (hv : g.Available a done v)
    (hops : (g.block a).ops = done ++ rest) (hdom : Dominates g.Edge 0 a b) (hne : a ≠ b)
    (hb : g.Reached b) {done' : List Op} : g.Available b done' v := by
  rcases hv with hv | hv | ⟨e, hea, hdome, he⟩
  · exact Or.inr (Or.inr ⟨a, hne, hdom, List.mem_append_left _ hv⟩)
  · exact Or.inr (Or.inr ⟨a, hne, hdom, mem_defs_of_done hops hv⟩)
  · refine Or.inr (Or.inr ⟨e, ?_, hdome.trans hdom, he⟩)
    rintro rfl
    exact hne (hdom.antisymm hdome hb)

/-- What is available where `r` is defined is available wherever `r` is. -/
theorem Ssa.available_trans (h : g.Ssa) {c : Nat} {cdone crest : List Op} {op : Op}
    (hops : (g.block c).ops = cdone ++ op :: crest) {r v : Value} (hr : r ∈ op.results)
    (hv : g.Available c cdone v) {b : Nat} {done rest : List Op}
    (hblock : (g.block b).ops = done ++ rest) (hb : g.Reached b) (havail : g.Available b done r) :
    g.Available b done v := by
  have hrc := mem_defs_of_result hops hr
  rcases havail with hp | hd | ⟨a, hne, hdom, ha⟩
  · -- `r` is no parameter.
    obtain rfl := h.block_unique hrc (List.mem_append_left _ hp)
    exact absurd hp (h.not_mem_done hops hr).1
  · obtain rfl := h.block_unique hrc (mem_defs_of_done hblock hd)
    -- The definition of `r` is among the operations done.
    obtain ⟨op', hop', hr'⟩ := List.mem_flatMap.mp hd
    obtain ⟨before, after, rfl⟩ := List.append_of_mem hop'
    rw [List.append_assoc, List.cons_append] at hblock
    obtain ⟨rfl, rfl, -⟩ := h.split_unique hops hblock hr hr'
    exact hv.append _
  · obtain rfl := h.block_unique hrc ha
    exact hv.below hops hdom hne hb

/-- Entering a block redefines nothing that is available where a value that
    is still available at the start of the block was defined. -/
theorem Ssa.not_param_of_available (h : g.Ssa) {c : Nat} {cdone crest : List Op} {op : Op}
    (hops : (g.block c).ops = cdone ++ op :: crest) {r v : Value} (hr : r ∈ op.results)
    (hv : g.Available c cdone v) {d : Nat} (hd : g.Reached d) (havail : g.Available d [] r) :
    r ∉ (g.block d).params ∧ v ∉ (g.block d).params ∧ c ≠ d ∧ Dominates g.Edge 0 c d := by
  have hrc := mem_defs_of_result hops hr
  have hrp : r ∉ (g.block d).params := by
    intro hp
    obtain rfl := h.block_unique hrc (List.mem_append_left _ hp)
    exact (h.not_mem_done hops hr).1 hp
  rcases havail with hp | hd' | ⟨a, hne, hdom, ha⟩
  · exact absurd hp hrp
  · exact absurd hd' List.not_mem_nil
  obtain rfl := h.block_unique hrc ha
  refine ⟨hrp, fun hp => ?_, hne, hdom⟩
  have hvd : v ∈ (g.block d).defs := List.mem_append_left _ hp
  rcases hv with hv | hv | ⟨e, hec, hdome, he⟩
  · exact hne (h.block_unique (List.mem_append_left _ hv) hvd)
  · exact hne (h.block_unique (mem_defs_of_done hops hv) hvd)
  · obtain rfl := h.block_unique he hvd
    exact hne (hdom.antisymm hdome hd)

/-- What is available at the start of a block was so at the end of the one
    control came from, unless it is a parameter. -/
theorem available_end {c : Nat} {cdone crest : List Op} {op : Op}
    (hops : (g.block c).ops = cdone ++ op :: crest) {r : Value} (hr : r ∈ op.results) {b d : Nat}
    (hedge : g.Edge b d) (hne : c ≠ d) (hdom : Dominates g.Edge 0 c d) :
    g.Available b (g.block b).ops r := by
  have hdomb := hdom.pred hne hedge
  by_cases hcb : c = b
  · subst hcb
    refine Or.inr (Or.inl ?_)
    rw [hops]
    exact List.mem_flatMap.mpr ⟨op, List.mem_append_right _ List.mem_cons_self, hr⟩
  · exact Or.inr (Or.inr ⟨c, hcb, hdomb, mem_defs_of_result hops hr⟩)

theorem exists_split {op : Op} (hop : op ∈ g.ops) :
    ∃ c done rest, (g.block c).ops = done ++ op :: rest := by
  obtain ⟨block, hblock, hop⟩ := List.mem_flatMap.mp hop
  obtain ⟨c, hc, rfl⟩ := List.getElem_of_mem hblock
  obtain ⟨done, rest, hsplit⟩ := List.append_of_mem hop
  exact ⟨c, done, rest, by rw [block_eq_getElem hc, hsplit]⟩

/-- What is available where control can get to was defined where control can
    get to. -/
theorem Ssa.reached_of_available (h : g.Ssa) {b c : Nat} {done rest : List Op} {v : Value}
    (hops : (g.block b).ops = done ++ rest) (hb : g.Reached b) (havail : g.Available b done v)
    (hdef : v ∈ (g.block c).defs) : g.Reached c := by
  rcases havail with hp | hd | ⟨a, -, hdom, ha⟩
  · exact h.block_unique hdef (List.mem_append_left _ hp) ▸ hb
  · exact h.block_unique hdef (mem_defs_of_done hops hd) ▸ hb
  · exact h.block_unique hdef ha ▸ hdom.reaches hb

/-- What is available at the start of a block, and no parameter of it, was so
    at the end of the one control came from. -/
theorem Available.pred {b d : Nat} (hedge : g.Edge b d) {v : Value} (h : g.Available d [] v)
    (hv : v ∉ (g.block d).params) : g.Available b (g.block b).ops v := by
  rcases h with hp | hd | ⟨a, hne, hdom, ha⟩
  · exact absurd hp hv
  · exact absurd hd List.not_mem_nil
  · have hdomb := hdom.pred hne hedge
    by_cases hab : a = b
    · subst hab
      exact (List.mem_append.mp ha).imp_right Or.inl
    · exact Or.inr (Or.inr ⟨a, hab, hdomb, ha⟩)

/-- Uses of what is defined earlier in the same block or, behind it, in the entry
    block. -/
theorem usesDominated_of_entry (h : ∀ b (hb : b < g.blocks.length),
    ∀ i (hi : i < g.blocks[b].ops.length), ∀ v ∈ g.blocks[b].ops[i].operands,
      v ∈ g.blocks[b].params ∨ v ∈ (g.blocks[b].ops.take i).flatMap Op.results ∨
        b ≠ 0 ∧ v ∈ (g.block 0).defs) : g.UsesDominated := by
  intro b done op rest hops _ v hv
  have hb : b < g.blocks.length := by
    by_contra hb
    rw [block_ops_eq_nil hb] at hops
    simp at hops
  rw [block_eq_getElem hb] at hops
  have hlt : done.length < g.blocks[b].ops.length := by
    rw [hops, List.length_append, List.length_cons]
    omega
  have hget : g.blocks[b].ops[done.length] = op := by
    simp only [hops, List.getElem_append_right (Nat.le_refl _), Nat.sub_self, List.getElem_cons_zero]
  rcases h b hb _ hlt v (hget ▸ hv) with hp | hd | ⟨hne, hentry⟩
  · rw [← block_eq_getElem hb] at hp
    exact Or.inl hp
  · rw [hops, List.take_left] at hd
    exact Or.inr (Or.inl hd)
  · exact Or.inr (Or.inr ⟨0, Ne.symm hne, entry_dominates b, hentry⟩)

/-- Uses of what is defined earlier in the same block. -/
theorem usesDominated_of_local (h : ∀ block ∈ g.blocks, ∀ i (hi : i < block.ops.length),
    ∀ v ∈ block.ops[i].operands,
      v ∈ block.params ∨ v ∈ (block.ops.take i).flatMap Op.results) : g.UsesDominated :=
  usesDominated_of_entry fun _ hb i hi v hv =>
    (h _ (List.getElem_mem hb) i hi v hv).imp_right Or.inl

end Region

end Crabbit.Llvm
