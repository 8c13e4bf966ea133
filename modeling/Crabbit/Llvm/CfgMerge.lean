/-
  Crabbit.Llvm.CfgMerge

  Merging a block into its only predecessor, whose only successor it is: the
  operations of both run one after the other, with the arguments of the branch
  in place of the parameters.
-/

import Crabbit.Llvm.CfgFold

namespace Crabbit.Llvm

open Crabbit.Lib

namespace Region

variable {A : CfgTable} {g : Region}

/-! ## Arguments for parameters -/

theorem bindArgs_cons (param arg : Value) (params args : List Value) (v : Value) :
    bindArgs (param :: params) (arg :: args) v = bindArgs params args (redirect param arg v) := rfl

theorem bindArgs_ty {params args : List Value} (h : args.map Value.ty = params.map Value.ty)
    (v : Value) : (bindArgs params args v).ty = v.ty := by
  induction params generalizing args v with
  | nil => rfl
  | cons param params ih =>
    cases args with
    | nil => rfl
    | cons arg args =>
      rw [List.map_cons, List.map_cons, List.cons.injEq] at h
      rw [bindArgs_cons, ih h.2]
      unfold redirect
      split_ifs with hv
      · rw [hv, h.1]
      · rfl

/-- What is no parameter stays. -/
theorem bindArgs_of_notMem {params args : List Value} {v : Value} (hv : v ∉ params) :
    bindArgs params args v = v := by
  induction params generalizing args with
  | nil => rfl
  | cons param params ih =>
    cases args with
    | nil => rfl
    | cons arg args =>
      rw [List.mem_cons, not_or] at hv
      rw [bindArgs_cons, redirect, if_neg hv.1]
      exact ih hv.2

/-- Where no argument is a parameter, the parameters become the arguments. -/
theorem map_bindArgs {params args : List Value} (hnodup : params.Nodup)
    (hlen : args.length = params.length) (hargs : ∀ v ∈ args, v ∉ params) :
    params.map (bindArgs params args) = args := by
  induction params generalizing args with
  | nil => exact (List.length_eq_zero_iff.mp hlen).symm
  | cons param params ih =>
    cases args with
    | nil => cases hlen
    | cons arg args =>
      obtain ⟨hparam, hnodup⟩ := List.nodup_cons.mp hnodup
      have harg : arg ∉ params := fun h =>
        hargs arg List.mem_cons_self (List.mem_cons_of_mem _ h)
      rw [List.map_cons, bindArgs_cons, redirect, if_pos rfl, bindArgs_of_notMem harg]
      congr 1
      refine Eq.trans (List.map_congr_left fun v hv => ?_) (ih hnodup (Nat.succ.inj hlen)
        fun v hv hp => hargs v (List.mem_cons_of_mem _ hv) (List.mem_cons_of_mem _ hp))
      have hne : v ≠ param := fun h => hparam (h ▸ hv)
      rw [bindArgs_cons, redirect, if_neg hne]

/-! ## One edge -/

/-- What is found once in all lists is found in one of them. -/
theorem eq_of_count_flatMap {α β : Type*} [DecidableEq β] {l : List α} {f : α → List β} {x : β}
    (h : (l.flatMap f).count x = 1) {i j : Nat} (hi : i < l.length) (hj : j < l.length)
    (hxi : x ∈ f l[i]) (hxj : x ∈ f l[j]) : i = j := by
  have htwice : ∀ {i j : Nat} (hi : i < l.length) (hj : j < l.length), x ∈ f l[i] → x ∈ f l[j] →
      ¬ i < j := by
    intro i j hi hj hxi hxj hlt
    rw [← List.take_append_drop j l, List.flatMap_append, List.count_append] at h
    have hbefore : 0 < ((l.take j).flatMap f).count x :=
      List.count_pos_iff.mpr (List.mem_flatMap.mpr ⟨_, List.mem_take_iff_getElem.mpr
        ⟨i, by omega, rfl⟩, hxi⟩)
    have hafter : 0 < ((l.drop j).flatMap f).count x :=
      List.count_pos_iff.mpr (List.mem_flatMap.mpr ⟨_, List.mem_drop_iff_getElem.mpr
        ⟨0, by omega, rfl⟩, hxj⟩)
    omega
  have h1 := htwice hi hj hxi hxj
  have h2 := htwice hj hi hxj hxi
  omega

/-- A block with one edge to it has one predecessor. -/
theorem edge_unique {b : Nat} (h : g.numPreds b = 1) {u v : Nat} (hu : g.Edge u b)
    (hv : g.Edge v b) : u = v := by
  have hedge : ∀ {u}, g.Edge u b → ∃ hlt : u < g.blocks.length,
      b ∈ (g.blocks[u].ops.flatMap Op.succs).map Successor.dest := by
    intro u hu
    unfold Edge succs at hu
    split at hu
    · rename_i op hop
      have hlt : u < g.blocks.length := by
        by_contra hlt
        rw [block_ops_eq_nil hlt] at hop
        cases hop
      refine ⟨hlt, ?_⟩
      obtain ⟨t, ht, rfl⟩ := List.mem_map.mp (List.mem_eraseDups.mp hu)
      apply List.mem_map_of_mem
      rw [← block_eq_getElem hlt]
      exact List.mem_flatMap.mpr ⟨op, List.mem_of_getLast? hop, ht⟩
    · exact absurd hu List.not_mem_nil
  obtain ⟨hltu, hmemu⟩ := hedge hu
  obtain ⟨hltv, hmemv⟩ := hedge hv
  unfold numPreds ops at h
  rw [List.flatMap_assoc, List.map_flatMap] at h
  exact eq_of_count_flatMap h hltu hltv hmemu hmemv

theorem mem_dropLast {α : Type*} {l : List α} {x : α} (h : x ∈ l.dropLast) :
    ∃ before after, l = before ++ x :: after ∧ after ≠ [] := by
  obtain ⟨before, after, hdrop⟩ := List.append_of_mem h
  have hne : l ≠ [] := by
    rintro rfl
    exact absurd h List.not_mem_nil
  refine ⟨before, after ++ [l.getLast hne], ?_, by simp⟩
  rw [← List.cons_append, ← List.append_assoc, ← hdrop, List.dropLast_append_getLast]

/-- Values are defined once if they are in every block, and no block defines
    those of another. -/
theorem nodup_of_blocks (hnodup : ∀ c, (g.block c).defs.Nodup)
    (hunique : ∀ c d v, v ∈ (g.block c).defs → v ∈ (g.block d).defs → c = d) :
    (g.blocks.flatMap BasicBlock.defs).Nodup := by
  refine List.nodup_flatMap.mpr ⟨?_, List.pairwise_iff_getElem.mpr ?_⟩
  · intro block hblock
    obtain ⟨c, hc, rfl⟩ := List.getElem_of_mem hblock
    rw [← block_eq_getElem hc]
    exact hnodup c
  · intro c d hc hd hlt v hvc hvd
    rw [← block_eq_getElem hc] at hvc
    rw [← block_eq_getElem hd] at hvd
    exact absurd (hunique c d v hvc hvd) (Nat.ne_of_lt hlt)

/-! ## The merged function -/

/-- The situation in which the target of the branch `term` is merged into
    block `b`. -/
structure Merges (A : CfgTable) (g : Region) (b : Nat) (succ : Successor) (init : List Op)
    (term : Op) : Prop where
  wf : g.Wf A
  reached : g.Reached b
  ops_eq : (g.block b).ops = init ++ [term]
  isBr : term.branch? = some (.br succ)
  ne : succ.dest ≠ b
  ne_entry : succ.dest ≠ 0
  pred : ∀ u, g.Edge u succ.dest → u = b

/-- The values of the merged block in the merged function. -/
def mergeSubst (g : Region) (succ : Successor) : Value → Value :=
  bindArgs (g.block succ.dest).params succ.args

theorem Wf.merges (hg : g.Wf A) (hpruned : g.Pruned) {b : Nat} {succ : Successor}
    (h : g.mergeable b = some succ) : ∃ init term, Merges A g b succ init term := by
  obtain ⟨hbranch, hne, hpreds, hentry, -⟩ := mergeable_eq_some h
  obtain ⟨-, init, term, hops, hterm⟩ := branch?_eq_some hbranch
  have hsuccs : term.succs = [succ] := (Op.branch?_eq_some hterm).2.1
  have hedge : g.Edge b succ.dest :=
    (mem_succs_last hops _).mpr ⟨succ, hsuccs ▸ List.mem_cons_self, rfl⟩
  refine ⟨init, term, hg, ?_, hops, hterm, hne, hentry, fun u hu => edge_unique hpreds hu hedge⟩
  apply hpruned
  rw [hops]
  exact List.append_ne_nil_of_right_ne_nil _ (List.cons_ne_nil _ _)

namespace Merges

variable {b : Nat} {succ : Successor} {init : List Op} {term : Op}

theorem lt (h : Merges A g b succ init term) : b < g.blocks.length := by
  by_contra hb
  have hops := h.ops_eq
  rw [block_ops_eq_nil hb] at hops
  simp at hops

theorem succs_eq (h : Merges A g b succ init term) : term.succs = [succ] :=
  (Op.branch?_eq_some h.isBr).2.1

theorem edge_succ (h : Merges A g b succ init term) : g.Edge b succ.dest :=
  (mem_succs_last h.ops_eq _).mpr ⟨succ, h.succs_eq ▸ List.mem_cons_self, rfl⟩

theorem reached_dest (h : Merges A g b succ init term) : g.Reached succ.dest :=
  h.reached.step h.edge_succ

theorem dominates (h : Merges A g b succ init term) : Dominates g.Edge 0 b succ.dest :=
  dominates_of_pred h.ne_entry h.pred

/-- The merged block does not dominate the one it is merged into. -/
theorem not_dominates (h : Merges A g b succ init term) : ¬ Dominates g.Edge 0 succ.dest b :=
  fun hdom => h.ne (hdom.antisymm h.dominates h.reached)

/-- The arguments are available at the branch. -/
theorem available_arg (h : Merges A g b succ init term) {v : Value} (hv : v ∈ succ.args) :
    g.Available b init v := by
  apply h.wf.uses b init term [] h.ops_eq h.reached
  rw [(Op.branch?_eq_some h.isBr).2.2.1]
  exact hv

/-- Whatever defines an argument is not below the merged block. -/
theorem not_below (h : Merges A g b succ init term) {v : Value} (hv : v ∈ succ.args) {c : Nat}
    (hc : c = succ.dest ∨ Dominates g.Edge 0 succ.dest c) : v ∉ (g.block c).defs := by
  intro hdef
  have hdom : Dominates g.Edge 0 succ.dest c := by
    rcases hc with rfl | hc
    · exact .refl _
    · exact hc
  apply h.not_dominates
  rcases h.available_arg hv with hp | hd | ⟨a, -, ha, hva⟩
  · exact h.wf.block_unique hdef (List.mem_append_left _ hp) ▸ hdom
  · exact h.wf.block_unique hdef (mem_defs_of_done h.ops_eq hd) ▸ hdom
  · exact (h.wf.block_unique hdef hva ▸ hdom).trans ha

theorem typed (h : Merges A g b succ init term) :
    succ.args.map Value.ty = (g.block succ.dest).params.map Value.ty := by
  apply h.wf.typed term (mem_ops_of_block (b := b) _) succ (h.succs_eq ▸ List.mem_cons_self)
  rw [h.ops_eq]
  exact List.mem_append_right _ List.mem_cons_self

theorem subst_ty (h : Merges A g b succ init term) (v : Value) :
    (g.mergeSubst succ v).ty = v.ty := bindArgs_ty h.typed v

theorem subst_of_notMem {v : Value} (hv : v ∉ (g.block succ.dest).params) :
    g.mergeSubst succ v = v := bindArgs_of_notMem hv

theorem map_subst (h : Merges A g b succ init term) :
    (g.block succ.dest).params.map (g.mergeSubst succ) = succ.args := by
  apply map_bindArgs
  · exact (List.nodup_append.mp (h.wf.defs_nodup succ.dest)).1
  · have := congrArg List.length h.typed
    rwa [List.length_map, List.length_map] at this
  · intro v hv hp
    exact h.not_below hv (Or.inl rfl) (List.mem_append_left _ hp)

theorem subst_mem_args (h : Merges A g b succ init term) {v : Value}
    (hv : v ∈ (g.block succ.dest).params) : g.mergeSubst succ v ∈ succ.args :=
  h.map_subst ▸ List.mem_map_of_mem hv

/-- What is defined in another block stays. -/
theorem subst_of_def (h : Merges A g b succ init term) {v : Value} {c : Nat}
    (hc : c ≠ succ.dest) (hv : v ∈ (g.block c).defs) : g.mergeSubst succ v = v :=
  subst_of_notMem fun hp => hc (h.wf.block_unique hv (List.mem_append_left _ hp))

/-- And so do the results of operations. -/
theorem subst_result (h : Merges A g b succ init term) {v : Value} {c : Nat} {done rest : List Op}
    {op : Op} (hops : (g.block c).ops = done ++ op :: rest) (hv : v ∈ op.results) :
    g.mergeSubst succ v = v := by
  apply subst_of_notMem
  intro hp
  obtain rfl := h.wf.block_unique (mem_defs_of_result hops hv) (List.mem_append_left _ hp)
  exact (h.wf.not_mem_done hops hv).1 hp

/-- Where a parameter of the merged block is available. -/
theorem below_of_param (h : Merges A g b succ init term) {v : Value}
    (hv : v ∈ (g.block succ.dest).params) {c : Nat} {done rest : List Op}
    (hops : (g.block c).ops = done ++ rest) (havail : g.Available c done v) :
    c = succ.dest ∨ Dominates g.Edge 0 succ.dest c := by
  have hdef : v ∈ (g.block succ.dest).defs := List.mem_append_left _ hv
  rcases havail with hp | hd | ⟨a, -, ha, hva⟩
  · exact Or.inl (h.wf.block_unique (List.mem_append_left _ hp) hdef)
  · exact Or.inl (h.wf.block_unique (mem_defs_of_done hops hd) hdef)
  · exact Or.inr (h.wf.block_unique hva hdef ▸ ha)

/-- What a value becomes is not defined where the value is available and yet
    to be defined. -/
theorem subst_notMem (h : Merges A g b succ init term) {v : Value} {c : Nat} {done rest : List Op}
    (hops : (g.block c).ops = done ++ rest) (havail : g.Available c done v) {vs : List Value}
    (hvs : ∀ w ∈ vs, w ∈ (g.block c).defs) (hv : v ∉ vs) : g.mergeSubst succ v ∉ vs := by
  by_cases hp : v ∈ (g.block succ.dest).params
  · intro hmem
    exact h.not_below (h.subst_mem_args hp) (h.below_of_param hp hops havail) (hvs _ hmem)
  · rwa [subst_of_notMem hp]

/-! ### Its blocks -/

theorem block_eq (h : Merges A g b succ init term) (c : Nat) :
    (g.mergeInto b succ).block c =
      if c = succ.dest then ⟨[], []⟩
      else ⟨(g.block c).params, (if c = b then init ++ (g.block succ.dest).ops
        else (g.block c).ops).map (Op.subst (g.mergeSubst succ))⟩ := by
  unfold mergeInto
  dsimp only
  rw [block_substAll, block_eraseBlock, block_setBlock h.lt, h.ops_eq, List.dropLast_concat]
  by_cases hc : c = succ.dest
  · rw [if_pos hc, if_pos hc]
    rfl
  · rw [if_neg hc, if_neg hc]
    by_cases hb : c = b
    · rw [if_pos hb, if_pos hb, hb]
      rfl
    · rw [if_neg hb, if_neg hb]
      rfl

theorem params_eq (h : Merges A g b succ init term) {c : Nat} (hc : c ≠ succ.dest) :
    ((g.mergeInto b succ).block c).params = (g.block c).params := by
  rw [h.block_eq, if_neg hc]

theorem results_map (repl : Value → Value) (ops : List Op) :
    (ops.map (Op.subst repl)).flatMap Op.results = ops.flatMap Op.results := by
  rw [List.flatMap_map]
  congr 1
  funext op
  exact op.subst_results

theorem mem_defs (h : Merges A g b succ init term) {c : Nat} {v : Value} :
    v ∈ ((g.mergeInto b succ).block c).defs ↔ c ≠ succ.dest ∧ (v ∈ (g.block c).defs ∨
      c = b ∧ v ∈ (g.block succ.dest).ops.flatMap Op.results) := by
  have hresults : term.results = [] := (Op.branch?_eq_some h.isBr).1
  rw [h.block_eq]
  by_cases hc : c = succ.dest
  · rw [if_pos hc]
    exact ⟨fun hv => absurd hv List.not_mem_nil, fun hv => absurd hc hv.1⟩
  · rw [if_neg hc]
    unfold BasicBlock.defs
    rw [results_map]
    by_cases hb : c = b
    · subst hb
      rw [if_pos rfl, h.ops_eq]
      simp only [List.flatMap_append, List.flatMap_cons, List.flatMap_nil, hresults,
        List.append_nil, List.mem_append, hc, ne_eq, not_false_eq_true, true_and, or_assoc]
    · rw [if_neg hb]
      simp only [hc, hb, ne_eq, not_false_eq_true, true_and, false_and, or_false]

/-- Only the branch leads to the merged block. -/
theorem ne_dest (h : Merges A g b succ init term) {c : Nat} {done rest : List Op} {op : Op}
    (hops : (g.block c).ops = done ++ op :: rest) (hc : c ≠ b ∨ rest ≠ []) {t : Successor}
    (ht : t ∈ op.succs) : t.dest ≠ succ.dest := by
  intro heq
  obtain ⟨hrest, hedge⟩ := h.wf.toSsa.edge hops ht
  rcases hc with hc | hc
  · exact hc (h.pred c (heq ▸ hedge))
  · exact hc hrest

/-- An operation of the merged function, at its old place and at its new one. -/
theorem split (h : Merges A g b succ init term) {c : Nat} {done' rest' : List Op} {op' : Op}
    (hops : ((g.mergeInto b succ).block c).ops = done' ++ op' :: rest') :
    ∃ a done op rest, (g.block a).ops = done ++ op :: rest ∧
      op' = op.subst (g.mergeSubst succ) ∧ (∀ t ∈ op.succs, t.dest ≠ succ.dest) ∧
      (rest = [] ↔ rest' = []) ∧
      ((a ≠ succ.dest ∧ c = a ∧ done' = done.map (Op.subst (g.mergeSubst succ))) ∨
        a = succ.dest ∧ c = b ∧ done' = (init ++ done).map (Op.subst (g.mergeSubst succ))) := by
  rw [h.block_eq] at hops
  by_cases hc : c = succ.dest
  · rw [if_pos hc] at hops
    simp at hops
  · rw [if_neg hc] at hops
    obtain ⟨done, more, hmore, rfl, hmap⟩ := List.map_eq_append_iff.mp hops
    obtain ⟨op, rest, rfl, rfl, hrest⟩ := List.map_eq_cons_iff.mp hmap
    have hnil : rest = [] ↔ rest' = [] := by rw [← hrest, List.map_eq_nil_iff]
    by_cases hb : c = b
    · subst hb
      rw [if_pos rfl] at hmore
      rcases List.append_eq_append_iff.mp hmore with ⟨mid, rfl, hmid⟩ | ⟨mid, hinit, hmid⟩
      · exact ⟨succ.dest, mid, op, rest, hmid, rfl, fun t ht => h.ne_dest hmid (Or.inl h.ne) ht,
          hnil, Or.inr ⟨rfl, rfl, rfl⟩⟩
      · cases mid with
        | nil =>
          rw [List.append_nil] at hinit
          have hfirst : (g.block succ.dest).ops = [] ++ op :: rest := hmid.symm
          refine ⟨succ.dest, [], op, rest, hfirst, rfl,
            fun t ht => h.ne_dest hfirst (Or.inl h.ne) ht, hnil, Or.inr ⟨rfl, rfl, ?_⟩⟩
          rw [List.append_nil, hinit]
        | cons op₀ mid =>
          cases hmid
          have hsplit : (g.block c).ops = done ++ op :: (mid ++ [term]) := by
            rw [h.ops_eq, hinit, List.append_assoc]
            rfl
          -- Operations follow: those of the merged block.
          have hne : rest' ≠ [] := by
            rw [← hrest, ne_eq, List.map_eq_nil_iff]
            exact List.append_ne_nil_of_right_ne_nil _ (h.wf.ended _ h.reached_dest)
          exact ⟨c, done, op, mid ++ [term], hsplit, rfl,
            fun t ht => h.ne_dest hsplit (Or.inr (by simp)) ht,
            ⟨fun h => absurd h (by simp), fun h => absurd h hne⟩, Or.inl ⟨hc, rfl, rfl⟩⟩
    · rw [if_neg hb] at hmore
      exact ⟨c, done, op, rest, hmore, rfl, fun t ht => h.ne_dest hmore (Or.inl hb) ht,
        hnil, Or.inl ⟨hc, rfl, rfl⟩⟩

theorem mem_ops (h : Merges A g b succ init term) {op' : Op} (hop : op' ∈ (g.mergeInto b succ).ops) :
    ∃ op ∈ g.ops, op' = op.subst (g.mergeSubst succ) ∧ ∀ t ∈ op.succs, t.dest ≠ succ.dest := by
  obtain ⟨c, done', rest', hsplit⟩ := exists_split hop
  obtain ⟨a, done, op, rest, hops, heq, hsuccs, -, -⟩ := h.split hsplit
  refine ⟨op, mem_ops_of_block (b := a) ?_, heq, hsuccs⟩
  rw [hops]
  exact List.mem_append_right _ List.mem_cons_self

/-! ### Its edges -/

theorem edge_lift (h : Merges A g b succ init term) (u v : Nat)
    (hedge : (g.mergeInto b succ).Edge u v) :
    g.Edge u v ∨ ∃ f, f = succ.dest ∧ g.Edge u f ∧ g.Edge f v := by
  unfold Edge succs at hedge
  split at hedge
  · rename_i op' hop'
    obtain ⟨done', hsplit'⟩ := List.getLast?_eq_some_iff.mp hop'
    obtain ⟨t', ht', rfl⟩ := List.mem_map.mp (List.mem_eraseDups.mp hedge)
    obtain ⟨a, done, op, rest, hops, rfl, -, -, hplace⟩ := h.split hsplit'
    rw [Op.subst_succs] at ht'
    obtain ⟨t, ht, rfl⟩ := List.mem_map.mp ht'
    obtain ⟨-, hat⟩ := h.wf.toSsa.edge hops ht
    rcases hplace with ⟨-, rfl, -⟩ | ⟨rfl, rfl, -⟩
    · exact Or.inl hat
    · exact Or.inr ⟨_, rfl, h.edge_succ, hat⟩
  · exact absurd hedge List.not_mem_nil

theorem reached_lift (h : Merges A g b succ init term) {c : Nat}
    (hc : (g.mergeInto b succ).Reached c) : g.Reached c := Reaches.lift h.edge_lift hc

/-- The edges of the merged block are those of its predecessor now. -/
theorem edge_merged (h : Merges A g b succ init term) {u v : Nat} (hedge : g.Edge u v)
    (hv : v ≠ succ.dest) : (g.mergeInto b succ).Edge (if u = succ.dest then b else u) v := by
  unfold Edge succs at hedge
  split at hedge
  · rename_i op hop
    obtain ⟨done, hops⟩ := List.getLast?_eq_some_iff.mp hop
    obtain ⟨t, ht, rfl⟩ := List.mem_map.mp (List.mem_eraseDups.mp hedge)
    have hmap : ∃ done', ((g.mergeInto b succ).block (if u = succ.dest then b else u)).ops
        = done' ++ [op.subst (g.mergeSubst succ)] := by
      rw [h.block_eq]
      by_cases hu : u = succ.dest
      · rw [if_pos hu, if_neg (Ne.symm h.ne)]
        dsimp only
        rw [if_pos rfl, ← hu, hops, ← List.append_assoc, List.map_append]
        exact ⟨_, rfl⟩
      · rw [if_neg hu, if_neg hu]
        dsimp only
        rw [if_neg, hops, List.map_append]
        · exact ⟨_, rfl⟩
        · rintro rfl
          rw [h.ops_eq] at hops
          obtain ⟨-, heq⟩ := List.append_inj' hops rfl
          rw [← List.singleton_inj.mp heq, h.succs_eq] at ht
          exact hv (by rw [List.mem_singleton.mp ht])
    obtain ⟨done', hsplit'⟩ := hmap
    refine (mem_succs_last hsplit' _).mpr ⟨t.subst (g.mergeSubst succ), ?_, rfl⟩
    rw [Op.subst_succs]
    exact List.mem_map_of_mem ht
  · exact absurd hedge List.not_mem_nil

theorem reached_merged (h : Merges A g b succ init term) {c : Nat} (hc : g.Reached c) :
    (g.mergeInto b succ).Reached (if c = succ.dest then b else c) := by
  obtain ⟨visited, hwalk⟩ := hc
  induction hwalk with
  | entry =>
    rw [if_neg (Ne.symm h.ne_entry)]
    exact ⟨_, .entry⟩
  | @step u v visited _ he ih =>
    by_cases hv : v = succ.dest
    · rw [if_pos hv]
      -- Control comes from the block that has the operations now.
      obtain rfl := h.pred u (hv ▸ he)
      rwa [if_neg (Ne.symm h.ne)] at ih
    · rw [if_neg hv]
      exact ih.step (h.edge_merged he hv)

theorem pruned (h : Merges A g b succ init term) (hpruned : g.Pruned) :
    (g.mergeInto b succ).Pruned := by
  intro c hc
  rw [h.block_eq] at hc
  by_cases hcs : c = succ.dest
  · rw [if_pos hcs] at hc
    exact absurd rfl hc
  · rw [if_neg hcs] at hc
    have hreached : g.Reached c := by
      by_cases hb : c = b
      · exact hb ▸ h.reached
      · dsimp only at hc
        rw [if_neg hb] at hc
        exact hpruned c fun hnil => hc (by rw [hnil]; rfl)
    have := h.reached_merged hreached
    rwa [if_neg hcs] at this

/-! ### It is well formed -/

theorem length_mergeInto : (g.mergeInto b succ).blocks.length = g.blocks.length := by
  unfold mergeInto substAll
  dsimp only
  rw [List.length_map, eraseBlock, length_setBlock, length_setBlock]

theorem ssa (h : Merges A g b succ init term) : (g.mergeInto b succ).Ssa := by
  -- Blocks of the merged function are those of the function, or empty.
  have hblock : ∀ block ∈ (g.mergeInto b succ).blocks, ∃ c, c < g.blocks.length ∧
      block = (g.mergeInto b succ).block c := by
    intro block hblock
    obtain ⟨c, hc, rfl⟩ := List.getElem_of_mem hblock
    exact ⟨c, length_mergeInto ▸ hc, (block_eq_getElem hc).symm⟩
  refine ⟨?_, ?_, ?_, ?_⟩
  · apply nodup_of_blocks
    · intro c
      rw [h.block_eq]
      by_cases hc : c = succ.dest
      · rw [if_pos hc]
        exact List.nodup_nil
      · rw [if_neg hc]
        unfold BasicBlock.defs
        rw [results_map]
        have hnodup := h.wf.defs_nodup c
        by_cases hb : c = b
        · subst hb
          unfold BasicBlock.defs at hnodup
          rw [h.ops_eq, List.flatMap_append] at hnodup
          rw [if_pos rfl, List.flatMap_append, ← List.append_assoc]
          rw [← List.append_assoc] at hnodup
          refine List.nodup_append.mpr ⟨(List.nodup_append.mp hnodup).1,
            (List.nodup_append.mp (h.wf.defs_nodup succ.dest)).2.1, ?_⟩
          rintro v hv w hw rfl
          apply h.ne
          apply h.wf.block_unique (List.mem_append_right _ hw) (v := v)
          unfold BasicBlock.defs
          rw [h.ops_eq, List.flatMap_append, ← List.append_assoc]
          exact List.mem_append_left _ hv
        · rw [if_neg hb]
          exact hnodup
    · intro c d v hcdefs hddefs
      obtain ⟨hcs, hc⟩ := h.mem_defs.mp hcdefs
      obtain ⟨hds, hd⟩ := h.mem_defs.mp hddefs
      rcases hc with hc | ⟨rfl, hcm⟩ <;> rcases hd with hd | ⟨rfl, hdm⟩
      · exact h.wf.block_unique hc hd
      · exact absurd (h.wf.block_unique hc (List.mem_append_right _ hdm)) hcs
      · exact absurd (h.wf.block_unique hd (List.mem_append_right _ hcm)) hds
      · rfl
  · intro block hmem op' hop'
    obtain ⟨c, -, rfl⟩ := hblock block hmem
    obtain ⟨done', rest', hsplit', hne⟩ := mem_dropLast hop'
    obtain ⟨a, done, op, rest, hops, rfl, -, hnil, -⟩ := h.split hsplit'
    rw [Op.subst_succs, h.wf.succs_nil hops fun hrest => hne (hnil.mp hrest)]
    rfl
  · intro block hmem op' hop'
    obtain ⟨c, -, rfl⟩ := hblock block hmem
    obtain ⟨done', hsplit'⟩ := List.getLast?_eq_some_iff.mp hop'
    obtain ⟨a, done, op, rest, hops, rfl, -, hnil, -⟩ := h.split hsplit'
    rw [hnil.mpr rfl] at hops
    rw [Op.subst_isGeneric]
    have ha : a < g.blocks.length := by
      by_contra ha
      rw [block_ops_eq_nil ha] at hops
      simp at hops
    apply h.wf.ends _ (block_mem ha)
    rw [hops, List.getLast?_concat]
    rfl
  · intro op' hop' t' ht'
    obtain ⟨op, hop, rfl, -⟩ := h.mem_ops hop'
    rw [Op.subst_succs] at ht'
    obtain ⟨t, ht, rfl⟩ := List.mem_map.mp ht'
    rw [length_mergeInto]
    exact h.wf.target op hop t ht

theorem ops_merged (h : Merges A g b succ init term) :
    ((g.mergeInto b succ).block b).ops = init.map (Op.subst (g.mergeSubst succ)) ++
      (g.block succ.dest).ops.map (Op.subst (g.mergeSubst succ)) := by
  rw [h.block_eq, if_neg (Ne.symm h.ne)]
  dsimp only
  rw [if_pos rfl, List.map_append]

theorem available_arg_merged (h : Merges A g b succ init term) {v : Value} (hv : v ∈ succ.args) :
    (g.mergeInto b succ).Available b (init.map (Op.subst (g.mergeSubst succ))) v := by
  rcases h.available_arg hv with hp | hd | ⟨a, hne, hdom, ha⟩
  · left
    rw [h.params_eq (Ne.symm h.ne)]
    exact hp
  · right
    left
    rw [results_map]
    exact hd
  · have hne' : a ≠ succ.dest := fun heq => h.not_dominates (heq ▸ hdom)
    exact Or.inr (Or.inr ⟨a, hne, hdom.lift h.edge_lift hne', h.mem_defs.mpr ⟨hne', Or.inl ha⟩⟩)

/-- What is available is still so, under its new name and in its new place. -/
theorem available (h : Merges A g b succ init term) {c : Nat} {done rest : List Op} {v : Value}
    (hops : (g.block c).ops = done ++ rest) (hc : g.Reached c) (havail : g.Available c done v) :
    (c ≠ succ.dest → (g.mergeInto b succ).Available c (done.map (Op.subst (g.mergeSubst succ)))
      (g.mergeSubst succ v)) ∧
    (c = succ.dest → (g.mergeInto b succ).Available b
      ((init ++ done).map (Op.subst (g.mergeSubst succ))) (g.mergeSubst succ v)) := by
  -- Below the merged block is below the one it is merged into.
  have hbelow : Dominates g.Edge 0 succ.dest c → b ≠ c ∧
      Dominates (g.mergeInto b succ).Edge 0 b c := by
    intro hdom
    refine ⟨fun heq => h.not_dominates (heq ▸ hdom), ?_⟩
    exact (h.dominates.trans hdom).lift h.edge_lift (Ne.symm h.ne)
  by_cases hp : v ∈ (g.block succ.dest).params
  · have harg := h.available_arg_merged (h.subst_mem_args hp)
    constructor
    · intro hcs
      obtain ⟨hne, hdom⟩ := hbelow ((h.below_of_param hp hops havail).resolve_left hcs)
      have hreached := h.reached_merged hc
      rw [if_neg hcs] at hreached
      exact harg.below h.ops_merged hdom hne hreached
    · intro _
      rw [List.map_append]
      exact harg.append _
  · rw [subst_of_notMem hp]
    rcases havail with hcp | hd | ⟨a, hne, hdom, ha⟩
    · constructor
      · intro hcs
        left
        rw [h.params_eq hcs]
        exact hcp
      · intro hcs
        exact absurd (hcs ▸ hcp) hp
    · constructor
      · intro _
        right
        left
        rw [results_map]
        exact hd
      · intro _
        right
        left
        rw [results_map, List.flatMap_append]
        exact List.mem_append_right _ hd
    · by_cases has : a = succ.dest
      · subst has
        have hv := (List.mem_append.mp ha).resolve_left hp
        refine ⟨fun _ => ?_, fun heq => absurd heq.symm hne⟩
        obtain ⟨hbc, hdom'⟩ := hbelow hdom
        exact Or.inr (Or.inr ⟨b, hbc, hdom', h.mem_defs.mpr ⟨Ne.symm h.ne, Or.inr ⟨rfl, hv⟩⟩⟩)
      · have ha' := h.mem_defs.mpr ⟨has, Or.inl ha⟩
        refine ⟨fun _ => Or.inr (Or.inr ⟨a, hne, hdom.lift h.edge_lift has, ha'⟩), ?_⟩
        rintro rfl
        have hdomb := hdom.pred hne h.edge_succ
        by_cases hab : a = b
        · subst hab
          unfold BasicBlock.defs at ha
          rw [h.ops_eq, List.flatMap_append, List.flatMap_singleton,
            (Op.branch?_eq_some h.isBr).1, List.append_nil] at ha
          rcases List.mem_append.mp ha with hap | hai
          · left
            rw [h.params_eq has]
            exact hap
          · right
            left
            rw [results_map, List.flatMap_append]
            exact List.mem_append_left _ hai
        · exact Or.inr (Or.inr ⟨a, hab, hdomb.lift h.edge_lift has, ha'⟩)

theorem not_reached (h : Merges A g b succ init term) :
    ¬ (g.mergeInto b succ).Reached succ.dest := by
  rintro ⟨visited, hwalk⟩
  have hnone : ∀ u v, (g.mergeInto b succ).Edge u v → v ≠ succ.dest := by
    intro u v hedge
    unfold Edge succs at hedge
    split at hedge
    · rename_i op' hop'
      obtain ⟨t', ht', rfl⟩ := List.mem_map.mp (List.mem_eraseDups.mp hedge)
      obtain ⟨op, -, rfl, hdest⟩ := h.mem_ops (mem_ops_of_block (List.mem_of_getLast? hop'))
      rw [Op.subst_succs] at ht'
      obtain ⟨t, ht, rfl⟩ := List.mem_map.mp ht'
      exact hdest t ht
    · exact absurd hedge List.not_mem_nil
  generalize hv : succ.dest = v at hwalk
  cases hwalk with
  | entry => exact h.ne_entry hv
  | step _ he => exact hnone _ _ he hv.symm

theorem wf_mergeInto (h : Merges A g b succ init term) : (g.mergeInto b succ).Wf A := by
  refine ⟨h.ssa, ?_, ?_, ?_, ?_, ?_⟩
  · intro c done' op' rest' hsplit' hc v' hv'
    obtain ⟨a, done, op, rest, hops, rfl, -, -, hplace⟩ := h.split hsplit'
    rw [Op.subst_operands] at hv'
    obtain ⟨v, hv, rfl⟩ := List.mem_map.mp hv'
    rcases hplace with ⟨has, rfl, rfl⟩ | ⟨rfl, rfl, rfl⟩
    · have ha := h.reached_lift hc
      exact (h.available hops ha (h.wf.uses _ done op rest hops ha v hv)).1 has
    · exact (h.available hops h.reached_dest
        (h.wf.uses _ done op rest hops h.reached_dest v hv)).2 rfl
  · intro c hc
    have hcs : c ≠ succ.dest := by
      rintro rfl
      exact h.not_reached hc
    rw [h.block_eq, if_neg hcs]
    dsimp only
    by_cases hcb : c = b
    · rw [if_pos hcb, ne_eq, List.map_eq_nil_iff]
      exact List.append_ne_nil_of_right_ne_nil _ (h.wf.ended _ h.reached_dest)
    · rw [if_neg hcb, ne_eq, List.map_eq_nil_iff]
      exact h.wf.ended c (h.reached_lift hc)
  · intro op' hop' t' ht'
    obtain ⟨op, hop, rfl, hdest⟩ := h.mem_ops hop'
    rw [Op.subst_succs] at ht'
    obtain ⟨t, ht, rfl⟩ := List.mem_map.mp ht'
    show (t.args.map (g.mergeSubst succ)).map Value.ty = _
    rw [h.params_eq (c := (t.subst (g.mergeSubst succ)).dest) (hdest t ht), List.map_map]
    refine Eq.trans (List.map_congr_left fun v _ => ?_) (h.wf.typed op hop t ht)
    exact h.subst_ty v
  · intro op' hop' cond' t' f' hbranch'
    obtain ⟨op, hop, rfl, -⟩ := h.mem_ops hop'
    rw [Op.branch?_subst] at hbranch'
    obtain ⟨branch, hbranch, heq⟩ := Option.map_eq_some_iff.mp hbranch'
    cases branch with
    | br t => cases heq
    | condBr cond t f =>
      cases heq
      rw [h.subst_ty]
      exact h.wf.conds op hop cond t f hbranch
  · intro op' hop' c hconst r hr
    obtain ⟨op, hop, rfl, -⟩ := h.mem_ops hop'
    rw [Op.const?_subst] at hconst
    rw [Op.subst_results] at hr
    exact h.wf.consts op hop c hconst r hr

/-! ### It does the same -/

/-- The states of the two functions: a value that is available has the value
    of what it becomes. -/
structure Merged (A : CfgTable) (g : Region) (b : Nat) (succ : Successor) (term : Op)
    {M : CfgMachine} (e : M.Entry) (s s' : M.State) : Prop where
  reachable : M.Reachable A g e s
  world_eq : s'.world = s.world
  rest : (s.block ≠ b ∧ s'.rest = s.rest.map (Op.subst (g.mergeSubst succ))) ∨
    ∃ mid, s.block = b ∧ s.rest = mid ++ [term] ∧
      s'.rest = (mid ++ (g.block succ.dest).ops).map (Op.subst (g.mergeSubst succ))
  env : ∀ done, (g.block s.block).ops = done ++ s.rest → ∀ v, g.Available s.block done v →
    s'.env (g.mergeSubst succ v) = s.env v

variable {env env' : PVals} {xs ys : List PVal} {c : Nat} {done rest : List Op}

/-- An operation defines the same in both. -/
theorem env_next (h : Merges A g b succ init term) {op : Op}
    (hops : (g.block c).ops = done ++ op :: rest) (hlen : xs.length = op.results.length)
    (henv : ∀ v, g.Available c done v → env' (g.mergeSubst succ v) = env v) {v : Value}
    (hv : g.Available c (done ++ [op]) v) :
    env'.setAll op.results xs (g.mergeSubst succ v) = env.setAll op.results xs v := by
  by_cases hr : v ∈ op.results
  · rw [h.subst_result hops hr]
    exact PVals.setAll_of_mem hlen hr
  · have hbefore := hv.of_append hr
    have hr' := h.subst_notMem hops hbefore (fun w hw => mem_defs_of_result hops hw) hr
    rw [PVals.setAll_of_notMem hr, PVals.setAll_of_notMem hr', henv v hbefore]

/-- So does passing arguments. -/
theorem env_jump (h : Merges A g b succ init term) {d : Nat} (hedge : g.Edge c d)
    (hd : d ≠ succ.dest) (hlen : ys.length = (g.block d).params.length)
    (henv : ∀ v, g.Available c (g.block c).ops v → env' (g.mergeSubst succ v) = env v) {v : Value}
    (hv : g.Available d [] v) : env'.setAll ((g.mergeInto b succ).block d).params ys
      (g.mergeSubst succ v) = env.setAll (g.block d).params ys v := by
  rw [h.params_eq hd]
  by_cases hp : v ∈ (g.block d).params
  · rw [h.subst_of_def hd (List.mem_append_left _ hp)]
    exact PVals.setAll_of_mem hlen hp
  · have hp' := h.subst_notMem (List.nil_append _).symm hv
      (fun w hw => List.mem_append_left _ hw) hp
    rw [PVals.setAll_of_notMem hp, PVals.setAll_of_notMem hp', henv v (hv.pred hedge hp)]

theorem merged_start (h : Merges A g b succ init term) {M : CfgMachine} {e : M.Entry} {d : Nat}
    {w : M.World} (hd : d ≠ succ.dest) (hs : M.Reachable A g e ⟨d, (g.block d).ops, env, w⟩)
    (henv : ∀ v, g.Available d [] v → env' (g.mergeSubst succ v) = env v) :
    Merged A g b succ term e ⟨d, (g.block d).ops, env, w⟩
      ⟨d, ((g.mergeInto b succ).block d).ops, env', w⟩ := by
  refine ⟨hs, rfl, ?_, ?_⟩
  · by_cases hb : d = b
    · subst hb
      refine Or.inr ⟨init, rfl, h.ops_eq, ?_⟩
      rw [List.map_append]
      exact h.ops_merged
    · refine Or.inl ⟨hb, ?_⟩
      show ((g.mergeInto b succ).block d).ops = _
      rw [h.block_eq, if_neg hd]
      dsimp only
      rw [if_neg hb]
  · intro done hdone v hv
    obtain rfl : done = [] := List.self_eq_append_left.mp hdone
    exact henv v hv

/-- An operation that both functions have at hand. -/
theorem merged_step (h : Merges A g b succ init term) {M : CfgMachine} {e : M.Entry}
    {s s' : M.State} (hrel : Merged A g b succ term e s s') {op : Op} {rest rest' : List Op}
    (hrest : s.rest = op :: rest)
    (hrest' : s'.rest = op.subst (g.mergeSubst succ) :: rest')
    (hdest : ∀ t ∈ op.succs, t.dest ≠ succ.dest)
    (hnext : (s.block ≠ b ∧ rest' = rest.map (Op.subst (g.mergeSubst succ))) ∨
      ∃ mid, s.block = b ∧ rest = mid ++ [term] ∧
        rest' = (mid ++ (g.block succ.dest).ops).map (Op.subst (g.mergeSubst succ))) :
    M.step A g s = none ∨ ∃ t t' event, M.step A g s = some (t, event) ∧
      M.step A (g.mergeInto b succ) s' = some (t', event) ∧ Merged A g b succ term e t t' := by
  obtain ⟨done, hops, hreached⟩ := hrel.reachable.located h.wf.toSsa
  have henv := hrel.env done hops
  rw [hrest] at hops
  have hvals : ∀ v ∈ op.operands, s'.env (g.mergeSubst succ v) = s.env v := fun v hv =>
    henv v (h.wf.uses s.block done op rest hops hreached v hv)
  rcases CfgMachine.lockstep (g := g) (A := A) (g.mergeSubst succ) h.subst_ty hrest hrest'
    hrel.world_eq hvals with
    ⟨hnone, -⟩ | ⟨-, xs, w, event, hlen, hstep, hstep'⟩ |
      ⟨d, hd, xs, ys, w, event, hlen, hlen', hstep, hstep'⟩
  · exact Or.inl hnone
  · refine Or.inr ⟨_, _, event, hstep, hstep', hrel.reachable.step hstep, rfl, hnext, ?_⟩
    intro done' hdone' v hv
    obtain rfl : done' = done ++ [op] := by
      apply (List.append_left_inj rest).mp
      rw [List.append_assoc]
      exact hdone'.symm.trans hops
    exact h.env_next hops hlen henv hv
  · obtain ⟨rfl, hedge⟩ := h.wf.toSsa.edge hops hd
    refine Or.inr ⟨_, _, event, hstep, hstep', h.merged_start (hdest d hd)
      (hrel.reachable.step hstep) fun v hv => ?_⟩
    have hmem : op ∈ g.ops := mem_ops_of_block (b := s.block) (by rw [hops]; simp)
    have htyped := congrArg List.length (h.wf.typed op hmem d hd)
    rw [List.length_map, List.length_map] at htyped
    apply h.env_jump hedge (hdest d hd) (hlen'.trans htyped) _ hv
    intro v hv
    rw [hops] at hv
    exact h.env_next hops hlen henv hv

theorem behaves (h : Merges A g b succ init term) : Behaves A g (g.mergeInto b succ) := by
  intro M e
  have hstutters : Process.Stutters (M.process A g) (M.process A (g.mergeInto b succ))
      (Merged A g b succ term e) fun s => if s.block = b then 1 else 0 := by
    intro s s' hrel
    obtain ⟨done, hops, hreached⟩ := hrel.reachable.located h.wf.toSsa
    rcases hrel.rest with ⟨hb, hrest'⟩ | ⟨mid, hb, hrest, hrest'⟩
    · cases hrest : s.rest with
      | nil =>
        have hend : s'.rest = [] := by rw [hrest', hrest]; rfl
        exact Or.inl ⟨CfgMachine.step_nil hrest, fun _ => ⟨CfgMachine.step_nil hend, hend⟩⟩
      | cons op rest =>
        rw [hrest] at hrest' hops
        rcases h.merged_step hrel hrest hrest' (fun t ht => h.ne_dest hops (Or.inl hb) ht)
          (Or.inl ⟨hb, rfl⟩) with hnone | hboth
        · exact Or.inl (CfgMachine.stuck hrest hnone)
        · exact Or.inr (Or.inr hboth)
    · cases mid with
      | nil =>
        -- The branch: the merged function is where it leads already.
        have hstep := CfgMachine.step_branch (g := g) (A := A) hrest h.isBr
        rw [show Branch.taken s.env (.br succ) = some succ from rfl] at hstep
        simp only [Option.bind_some, CfgMachine.enter] at hstep
        cases hys : succ.args.mapM s.env with
        | none =>
          rw [hys] at hstep
          exact Or.inl (CfgMachine.stuck hrest hstep)
        | some ys =>
          rw [hys] at hstep
          refine Or.inr (Or.inl ⟨_, hstep, ⟨hrel.reachable.step hstep, hrel.world_eq, ?_, ?_⟩, ?_⟩)
          · exact Or.inl ⟨h.ne, hrest'⟩
          · intro done' hdone' v hv
            obtain rfl : done' = [] := List.self_eq_append_left.mp hdone'
            have hinit : (g.block s.block).ops = init ++ s.rest := by
              rw [hb, hrest]
              exact h.ops_eq
            have henv := hrel.env init hinit
            rw [hb] at henv
            by_cases hp : v ∈ (g.block succ.dest).params
            · have harg := h.subst_mem_args hp
              have hkeep : g.mergeSubst succ (g.mergeSubst succ v) = g.mergeSubst succ v :=
                subst_of_notMem fun hp' =>
                  h.not_below harg (Or.inl rfl) (List.mem_append_left _ hp')
              have hsame := henv _ (h.available_arg harg)
              rw [hkeep] at hsame
              rw [hsame]
              exact (PVals.setAll_of_mapM (g.mergeSubst succ) h.map_subst hys hp).symm
            · refine Eq.trans ?_ (PVals.setAll_of_notMem hp).symm
              apply henv v
              have hend := hv.pred h.edge_succ hp
              rw [h.ops_eq] at hend
              apply hend.of_append
              rw [(Op.branch?_eq_some h.isBr).1]
              exact List.not_mem_nil
          · show (if succ.dest = b then 1 else 0) < if s.block = b then 1 else 0
            rw [if_neg h.ne, if_pos hb]
            exact Nat.one_pos
      | cons op mid =>
        rw [hrest] at hops
        have hmid : mid ++ [term] ≠ [] := by simp
        rcases h.merged_step hrel hrest hrest' (fun t ht => h.ne_dest hops (Or.inr hmid) ht)
          (Or.inr ⟨mid, hb, rfl, rfl⟩) with hnone | hboth
        · exact Or.inl (CfgMachine.stuck hrest hnone)
        · exact Or.inr (Or.inr hboth)
  apply hstutters.refined
  unfold CfgMachine.Entry.state
  rw [h.params_eq (Ne.symm h.ne_entry)]
  apply h.merged_start (Ne.symm h.ne_entry) .entry
  intro v hv
  -- Only the parameters are available at the entry, and they keep their names.
  rcases hv with hp | hd | ⟨a, hne, hdom, -⟩
  · rw [h.subst_of_def (Ne.symm h.ne_entry) (List.mem_append_left _ hp)]
  · exact absurd hd List.not_mem_nil
  · exact absurd hdom.eq_entry hne

end Merges

/-! ## All merges -/

/-- `merge_straight_line_blocks` keeps what the function does. -/
theorem Wf.mergeStraightLineBlocks (hg : g.Wf A) (hpruned : g.Pruned) :
    Simplified A g g.mergeStraightLineBlocks.1 ∧ g.mergeStraightLineBlocks.1.Pruned := by
  induction hn : g.ops.length using Nat.strong_induction_on generalizing g with
  | _ n ih =>
    unfold Region.mergeStraightLineBlocks
    split
    · exact ⟨.refl hg, hpruned⟩
    · rename_i g' hmerge
      have hlen := length_ops_mergeOnce hmerge
      obtain ⟨b, -, hb⟩ := List.exists_of_findSome?_eq_some hmerge
      obtain ⟨succ, hsucc, rfl⟩ := Option.map_eq_some_iff.mp hb
      obtain ⟨init, term, hm⟩ := hg.merges hpruned hsucc
      obtain ⟨hrest, hpruned'⟩ := ih _ (hn ▸ hlen) hm.wf_mergeInto (hm.pruned hpruned) rfl
      exact ⟨(⟨hm.wf_mergeInto, hm.behaves⟩ : Simplified A g _).trans hrest, hpruned'⟩

/-- And leaves nothing to be merged. -/
theorem mergeOnce_mergeStraightLineBlocks (g : Region) :
    g.mergeStraightLineBlocks.1.mergeOnce = none := by
  induction hn : g.ops.length using Nat.strong_induction_on generalizing g with
  | _ n ih =>
    unfold mergeStraightLineBlocks
    split
    · assumption
    · rename_i g' hmerge
      exact ih _ (hn ▸ length_ops_mergeOnce hmerge) g' rfl

end Region

end Crabbit.Llvm
