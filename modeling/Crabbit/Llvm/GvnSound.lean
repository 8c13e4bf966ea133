/-
  Crabbit.Llvm.GvnSound

  Common subexpressions are eliminated rightly, but for the flags that keys
  leave out.

  The walk keeps the function in SSA form and every table entry bound to an
  operation with its key, in a block that dominates the current one; no value
  that is replaced is used by such an operation.  In every state an execution
  gets to, the two values of a merge are then what their operations evaluate
  to on the same operands.
-/

import Crabbit.Llvm.GvnKeys
import Crabbit.Llvm.PoisonRuns

namespace Crabbit.Llvm

open Crabbit.Lib

namespace Region

/-! ## Replacing a result by a value -/

/-- What the verifier promises, dominance included; blocks end in
    terminators. -/
structure Verified (g : Region) : Prop extends g.Ssa where
  uses : g.UsesDominated
  terminated : ∀ b ∈ g.blocks, ∀ op ∈ b.ops.getLast?, op.opid.isPure = false

/-- The operations that are left of a list. -/
def thinned (r v : Value) (ops : List Op) : List Op :=
  (ops.filter fun op => r ∉ op.results).map (Op.subst (redirect r v))

theorem thinned_append (r v : Value) (ops ops' : List Op) :
    thinned r v (ops ++ ops') = thinned r v ops ++ thinned r v ops' := by
  unfold thinned
  rw [List.filter_append, List.map_append]

theorem thinned_keep {r : Value} {op : Op} (h : r ∉ op.results) (v : Value) (ops : List Op) :
    thinned r v (op :: ops) = op.subst (redirect r v) :: thinned r v ops := by
  unfold thinned
  rw [List.filter_cons_of_pos (by simpa using h), List.map_cons]

theorem thinned_drop {r : Value} {op : Op} (h : r ∈ op.results) (v : Value) (ops : List Op) :
    thinned r v (op :: ops) = thinned r v ops := by
  unfold thinned
  rw [List.filter_cons_of_neg (by simpa using h)]

theorem rewriteOps_eq_thinned (r v : Value) (ops : List Op) :
    rewriteOps (redirect r v)
      (ops.map fun op => (op, if r ∈ op.results then Action.drop else .keep)) =
    thinned r v ops := by
  induction ops with
  | nil => rfl
  | cons op ops ih =>
    rw [List.map_cons]
    by_cases hr : r ∈ op.results
    · rw [if_pos hr, thinned_drop hr, ← ih]
      rfl
    · rw [if_neg hr, thinned_keep hr, ← ih]
      rfl

theorem length_thinned {r v : Value} {ops : List Op} (h : r ∉ ops.flatMap Op.results) :
    (thinned r v ops).length = ops.length := by
  unfold thinned
  rw [List.length_map, List.filter_eq_self.mpr]
  intro op hop
  exact decide_eq_true fun hr => h (List.mem_flatMap.mpr ⟨op, hop, hr⟩)

/-- What is left of a list comes from a split of the list. -/
theorem thinned_split {r v : Value} {ops left right : List Op} {op' : Op}
    (h : thinned r v ops = left ++ op' :: right) :
    ∃ before op after, ops = before ++ op :: after ∧ left = thinned r v before ∧
      op' = op.subst (redirect r v) ∧ r ∉ op.results := by
  unfold thinned at h
  obtain ⟨left₀, right₀, hfilter, hleft, hright⟩ := List.map_eq_append_iff.mp h
  obtain ⟨op, right₁, rfl, rfl, -⟩ := List.map_eq_cons_iff.mp hright
  obtain ⟨before, after, rfl, hbefore, hafter⟩ := List.filter_eq_append_iff.mp hfilter
  obtain ⟨skipped, after, rfl, hskipped, hop, -⟩ := List.filter_eq_cons_iff.mp hafter
  refine ⟨before ++ skipped, op, after, (List.append_assoc ..).symm, ?_, rfl, of_decide_eq_true hop⟩
  unfold thinned
  rw [List.filter_append, hbefore, List.filter_eq_nil_iff.mpr hskipped, List.append_nil, hleft]

theorem mem_thinned {r v : Value} {ops : List Op} {op : Op} (hop : op ∈ ops)
    (hr : r ∉ op.results) : op.subst (redirect r v) ∈ thinned r v ops :=
  List.mem_map.mpr ⟨op, List.mem_filter.mpr ⟨hop, decide_eq_true hr⟩, rfl⟩

/-- The situation in which `v` replaces `r`, the result of a pure operation:
    it is available there. -/
structure Replacing (g : Region) (b : Nat) (done : List Op) (op : Op) (rest : List Op)
    (r v : Value) : Prop where
  verified : g.Verified
  ops_eq : (g.block b).ops = done ++ op :: rest
  reached : g.Reached b
  results : op.results = [r]
  isPure : op.opid.isPure = true
  available : g.Available b done v

namespace Replacing

variable {g : Region} {b : Nat} {done rest : List Op} {op : Op} {r v : Value}

theorem mem_results (h : Replacing g b done op rest r v) : r ∈ op.results := by
  rw [h.results]
  exact List.mem_cons_self

/-- What is available at the operation is not its result. -/
theorem ne (h : Replacing g b done op rest r v) {x : Value} (hx : g.Available b done x) : x ≠ r := by
  rintro rfl
  exact h.verified.not_available h.ops_eq h.mem_results hx

/-- No other operation defines the result. -/
theorem eq_of_mem_results (h : Replacing g b done op rest r v) {op' : Op} (hop' : op' ∈ g.ops)
    (hr : r ∈ op'.results) : op' = op := by
  apply h.verified.op_unique hop' _ hr h.mem_results
  apply mem_ops_of_block (b := b)
  rw [h.ops_eq]
  exact List.mem_append_right _ List.mem_cons_self

theorem annotates (h : Replacing g b done op rest r v) : g.Annotates fun c =>
    (g.block c).ops.map fun op => (op, if r ∈ op.results then .drop else .keep) := by
  refine ⟨fun c => ?_, fun {c done' op' action} hops => ?_⟩
  · rw [List.map_map]
    exact List.map_id _
  · obtain ⟨left, right, hsplit, -, hright⟩ := List.map_eq_append_iff.mp hops
    obtain ⟨op'', right', rfl, hentry, hnil⟩ := List.map_eq_cons_iff.mp hright
    obtain rfl := List.map_eq_nil_iff.mp hnil
    obtain ⟨rfl, rfl⟩ := Prod.mk.inj hentry
    apply if_neg
    intro hr
    -- The replaced operation is pure, and a block does not end in such a one.
    have hc : c < g.blocks.length := by
      by_contra hc
      rw [block_ops_eq_nil hc] at hsplit
      simp at hsplit
    obtain rfl := h.eq_of_mem_results (mem_ops_of_block (by rw [hsplit]; simp)) hr
    have hlast := h.verified.terminated _ (block_mem hc) op'' (by rw [hsplit]; simp)
    rw [h.isPure] at hlast
    cases hlast

theorem block_eq (h : Replacing g b done op rest r v) (c : Nat) :
    (g.replaceWith r v).block c = ⟨(g.block c).params, thinned r v (g.block c).ops⟩ := by
  unfold replaceWith
  rw [h.annotates.block_eq, rewriteOps_eq_thinned]

theorem edge_eq (h : Replacing g b done op rest r v) : (g.replaceWith r v).Edge = g.Edge :=
  h.annotates.edge_eq

theorem mem_thinned_results (h : Replacing g b done op rest r v) {x : Value} (hx : x ≠ r) {c : Nat}
    {ops : List Op} (hsub : ∀ op ∈ ops, op ∈ (g.block c).ops) (hd : x ∈ ops.flatMap Op.results) :
    x ∈ (thinned r v ops).flatMap Op.results := by
  obtain ⟨op', hop', hxop'⟩ := List.mem_flatMap.mp hd
  have hr : r ∉ op'.results := by
    intro hr
    obtain rfl := h.eq_of_mem_results (mem_ops_of_block (hsub op' hop')) hr
    rw [h.results] at hxop'
    exact hx (List.mem_singleton.mp hxop')
  exact List.mem_flatMap.mpr ⟨_, mem_thinned hop' hr, by rwa [Op.subst_results]⟩

theorem mem_defs (h : Replacing g b done op rest r v) {c : Nat} {x : Value} (hx : x ≠ r)
    (hdef : x ∈ (g.block c).defs) : x ∈ ((g.replaceWith r v).block c).defs := by
  rw [h.block_eq]
  rcases List.mem_append.mp hdef with hp | hd
  · exact List.mem_append_left _ hp
  · exact List.mem_append_right _ (h.mem_thinned_results hx (fun op hop => hop) hd)

/-- A value other than the replaced one is available where it was. -/
theorem available_of (h : Replacing g b done op rest r v) {c : Nat} {cdone : List Op}
    (hsub : ∀ op ∈ cdone, op ∈ (g.block c).ops) {x : Value} (hx : x ≠ r)
    (havail : g.Available c cdone x) :
    (g.replaceWith r v).Available c (thinned r v cdone) x := by
  rcases havail with hp | hd | ⟨a, hne, hdom, ha⟩
  · left
    rw [h.block_eq]
    exact hp
  · exact Or.inr (Or.inl (h.mem_thinned_results hx hsub hd))
  · refine Or.inr (Or.inr ⟨a, hne, ?_, h.mem_defs hx ha⟩)
    rw [h.edge_eq]
    exact hdom

/-- What a value is replaced by is available where the value is. -/
theorem available_redirect (h : Replacing g b done op rest r v) {c : Nat} {cdone crest : List Op}
    (hops : (g.block c).ops = cdone ++ crest) (hc : g.Reached c) {x : Value}
    (hx : g.Available c cdone x) :
    (g.replaceWith r v).Available c (thinned r v cdone) (redirect r v x) := by
  have hsub : ∀ op ∈ cdone, op ∈ (g.block c).ops := by
    intro op hop
    rw [hops]
    exact List.mem_append_left _ hop
  unfold redirect
  by_cases hxr : x = r
  · subst hxr
    rw [if_pos rfl]
    apply h.available_of hsub (h.ne h.available)
    exact h.verified.available_trans h.ops_eq h.mem_results h.available hops hc hx
  · rw [if_neg hxr]
    exact h.available_of hsub hxr hx

theorem verified_replaceWith (h : Replacing g b done op rest r v) : (g.replaceWith r v).Verified := by
  refine ⟨h.annotates.ssa h.verified.toSsa, ?_, ?_⟩
  · intro c left op' right hops hc x' hx'
    rw [h.block_eq] at hops
    obtain ⟨before, o, after, hsplit, rfl, rfl, -⟩ := thinned_split hops
    rw [Op.subst_operands] at hx'
    obtain ⟨x, hx, rfl⟩ := List.mem_map.mp hx'
    have hreached : g.Reached c := by
      unfold Reached
      rw [← h.edge_eq]
      exact hc
    exact h.available_redirect hsplit hreached (h.verified.uses c before o after hsplit hreached x hx)
  · intro block hblock op' hop'
    obtain ⟨c, hc, rfl⟩ := List.getElem_of_mem hblock
    rw [← block_eq_getElem hc, replaceWith, h.annotates.block_eq] at hop'
    rcases h.annotates.rewriteOps_last (redirect r v) c with
      ⟨-, hnil⟩ | ⟨left, o, -, hsplit, hlast⟩
    · simp only [hnil] at hop'
      cases hop'
    · simp only [hlast, List.getLast?_append, List.getLast?_singleton, Option.some_or] at hop'
      cases hop'
      rw [Op.subst_opid]
      apply h.verified.terminated _ (block_mem (rewrite_length ▸ hc))
      rw [hsplit, List.getLast?_append]
      rfl

end Replacing

end Region

/-! ## What the walk keeps -/

/-- A table entry is right: in block `a` there is an operation with the key
    whose result is the value. -/
def Bound (T : AttrTable) (g : Region) (a : Nat) (entry : ExprKey × Value) : Prop :=
  ∃ done op rest, (g.block a).ops = done ++ op :: rest ∧ g.Reached a ∧ entry.2 ∈ op.results ∧
    exprKey T op = some entry.1

/-- Every entry is right, and its value available. -/
def InScope (T : AttrTable) (g : Region) (b : Nat) (done : List Op) (scopes : List Scope) : Prop :=
  ∀ scope ∈ scopes, ∀ entry ∈ scope,
    (∃ a, Bound T g a entry) ∧ g.Available b done entry.2

section Scopes

variable {T : AttrTable} {g : Region} {b : Nat} {done rest : List Op}

theorem lookup_inScope {scopes : List Scope} (h : InScope T g b done scopes) {key : ExprKey}
    {v : Value} (hlookup : lookupKey scopes key = some v) :
    (∃ a, Bound T g a (key, v)) ∧ g.Available b done v := by
  obtain ⟨scope, hscope, hv⟩ := List.exists_of_findSome?_eq_some hlookup
  have hentry : (key, v) ∈ scope := by
    obtain ⟨l₁, l₂, rfl, -⟩ := List.lookup_eq_some_iff.mp hv
    exact List.mem_append_right _ List.mem_cons_self
  exact h scope hscope _ hentry

theorem InScope.more {scopes : List Scope} (h : InScope T g b done scopes) (op : Op) :
    InScope T g b (done ++ [op]) scopes :=
  fun scope hscope entry hentry =>
    ⟨(h scope hscope entry hentry).1, (h scope hscope entry hentry).2.append _⟩

/-- A block that is strictly dominated begins with what was available. -/
theorem InScope.child {scopes : List Scope}
    (h : InScope T g b done scopes) (hops : (g.block b).ops = done ++ rest) {c : Nat} (hne : c ≠ b)
    (hdom : Dominates g.Edge 0 b c) (hb : g.Reached b) : InScope T g c [] scopes := by
  intro scope hscope entry hentry
  obtain ⟨hbound, havail⟩ := h scope hscope entry hentry
  refine ⟨hbound, Or.inr (Or.inr ?_)⟩
  rcases havail with hp | hd | ⟨a, hab, hdoma, ha⟩
  · exact ⟨b, hne.symm, hdom, List.mem_append_left _ hp⟩
  · exact ⟨b, hne.symm, hdom, Region.mem_defs_of_done hops hd⟩
  · refine ⟨a, ?_, hdoma.trans hdom, ha⟩
    rintro rfl
    exact hne (hdoma.antisymm hdom hb)

/-- A replacement leaves the entries right whose values are available where it
    is made: their operations use nothing that is defined there. -/
theorem Bound.replaceWith {op : Op} {r v : Value} (hrep : g.Replacing b done op rest r v) {a : Nat}
    {entry : ExprKey × Value} (h : Bound T g a entry) (havail : g.Available b done entry.2) :
    Bound T (g.replaceWith r v) a entry := by
  obtain ⟨before, e, after, hsplit, ha, hentry, hkey⟩ := h
  obtain ⟨-, -, ⟨x, hx⟩, -⟩ := exprKey_spec hkey
  have hne : entry.2 ≠ r := hrep.ne havail
  have hr : r ∉ e.results := by
    intro hr
    rw [hx] at hr hentry
    exact hne ((List.mem_singleton.mp hentry).trans (List.mem_singleton.mp hr).symm)
  have hoperands : ∀ y ∈ e.operands, redirect r v y = y := by
    intro y hy
    apply if_neg
    rintro rfl
    have hy' := hrep.verified.uses a before e after hsplit ha y hy
    exact hrep.ne (hrep.verified.available_trans hsplit hentry hy' hrep.ops_eq hrep.reached havail) rfl
  refine ⟨Region.thinned r v before, e, Region.thinned r v after, ?_, ?_, hentry, hkey⟩
  · rw [hrep.block_eq, hsplit]
    show Region.thinned r v (before ++ e :: after) = _
    rw [Region.thinned_append, Region.thinned_keep hr, Op.subst_of_agree hoperands]
  · unfold Region.Reached
    rw [hrep.edge_eq]
    exact ha

end Scopes

/-! ## The walk -/

/-- A merge is made of two operations with one key, of which one is available
    at the other. -/
structure Merge.Ok (T : AttrTable) (m : Merge) : Prop where
  verified : m.region.Verified
  located : ∃ b done op rest key a, (m.region.block b).ops = done ++ op :: rest ∧
    m.region.Reached b ∧ op.results = [m.replaced] ∧ exprKey T op = some key ∧
    Bound T m.region a (key, m.existing) ∧ m.region.Available b done m.existing

/-- What a part of the walk does, seen from the scopes it is in. -/
structure Walked (T : AttrTable) (scopes : List Scope) (st st' : GvnState) : Prop where
  verified : st'.region.Verified
  edge_eq : st'.region.Edge = st.region.Edge
  bound : ∀ scope ∈ scopes, ∀ entry ∈ scope, ∀ a,
    Bound T st.region a entry → Bound T st'.region a entry
  merges : ∀ m ∈ st'.merges, m ∈ st.merges ∨ m.Ok T

namespace Walked

variable {T : AttrTable} {scopes : List Scope} {st st' st'' : GvnState}

theorem refl (h : st.region.Verified) : Walked T scopes st st :=
  ⟨h, rfl, fun _ _ _ _ _ hbound => hbound, fun _ hm => Or.inl hm⟩

theorem trans (h : Walked T scopes st st') (h' : Walked T scopes st' st'') :
    Walked T scopes st st'' := by
  refine ⟨h'.verified, h'.edge_eq.trans h.edge_eq, ?_, ?_⟩
  · intro scope hscope entry hentry a hbound
    exact h'.bound scope hscope entry hentry a (h.bound scope hscope entry hentry a hbound)
  · intro m hm
    rcases h'.merges m hm with hm | hok
    · exact h.merges m hm
    · exact Or.inr hok

theorem outer {scope : Scope} (h : Walked T (scope :: scopes) st st') : Walked T scopes st st' :=
  ⟨h.verified, h.edge_eq, fun s hs => h.bound s (List.mem_cons_of_mem _ hs), h.merges⟩

/-- The scopes are still right at the start of another block. -/
theorem inScope (h : Walked T scopes st st') (hssa : st.region.Ssa) {c : Nat}
    (hscope : InScope T st.region c [] scopes) : InScope T st'.region c [] scopes := by
  intro scope hmem entry hentry
  obtain ⟨⟨a, hbound⟩, havail⟩ := hscope scope hmem entry hentry
  have hbound' := h.bound scope hmem entry hentry a hbound
  obtain ⟨before, e, after, hsplit, -, hres, -⟩ := hbound
  refine ⟨⟨a, hbound'⟩, Or.inr (Or.inr ?_)⟩
  have hdef := Region.mem_defs_of_result hsplit hres
  rcases havail with hp | hd | ⟨a', hne, hdom, ha'⟩
  · obtain rfl := hssa.block_unique hdef (List.mem_append_left _ hp)
    exact absurd hp (hssa.not_mem_done hsplit hres).1
  · exact absurd hd List.not_mem_nil
  · obtain rfl := hssa.block_unique hdef ha'
    obtain ⟨before', e', after', hsplit', -, hres', -⟩ := hbound'
    exact ⟨a, hne, h.edge_eq ▸ hdom, Region.mem_defs_of_result hsplit' hres'⟩

end Walked

section Walk

variable {T : AttrTable} {b : Nat} {done rest : List Op} {op : Op} {key : ExprKey} {r v : Value}
  {scopes : List Scope} {st : GvnState}

/-- One replacement. -/
theorem replace_walked (hrep : st.region.Replacing b done op rest r v)
    (hkey : exprKey T op = some key) (hscope : InScope T st.region b done scopes)
    (hbound : ∃ a, Bound T st.region a (key, v)) :
    Walked T scopes st ⟨st.region.replaceWith r v, st.merges ++ [⟨st.region, r, v⟩]⟩ ∧
      InScope T (st.region.replaceWith r v) b (Region.thinned r v done) scopes := by
  have hsub : ∀ op ∈ done, op ∈ (st.region.block b).ops := by
    intro op hop
    rw [hrep.ops_eq]
    exact List.mem_append_left _ hop
  refine ⟨⟨hrep.verified_replaceWith, hrep.edge_eq, ?_, ?_⟩, ?_⟩
  · intro scope hmem entry hentry a h
    exact h.replaceWith hrep (hscope scope hmem entry hentry).2
  · intro m hm
    refine (List.mem_append.mp hm).imp_right fun hm => ?_
    obtain rfl := List.mem_singleton.mp hm
    obtain ⟨a, hbound⟩ := hbound
    exact ⟨hrep.verified, b, done, op, rest, key, a, hrep.ops_eq, hrep.reached, hrep.results, hkey,
      hbound, hrep.available⟩
  · intro scope hmem entry hentry
    obtain ⟨⟨a, h⟩, havail⟩ := hscope scope hmem entry hentry
    exact ⟨⟨a, h.replaceWith hrep havail⟩, hrep.available_of hsub (hrep.ne havail) havail⟩

/-- The operations of a block. -/
theorem cseOps_walked {outer : List Scope} (n pos : Nat) (scope : Scope) (st : GvnState)
    {done rest : List Op} (hg : st.region.Verified) (hb : st.region.Reached b)
    (hops : (st.region.block b).ops = done ++ rest) (hpos : done.length = pos)
    (hn : rest.length = n) (hscope : InScope T st.region b done (scope :: outer)) :
    Walked T outer st (cseOps T b n pos outer scope st).2 ∧
      InScope T (cseOps T b n pos outer scope st).2.region b
        ((cseOps T b n pos outer scope st).2.region.block b).ops
        ((cseOps T b n pos outer scope st).1 :: outer) := by
  induction n generalizing pos scope st done rest with
  | zero =>
    obtain rfl := List.length_eq_zero_iff.mp hn
    rw [List.append_nil] at hops
    show Walked T outer st st ∧ InScope T st.region b (st.region.block b).ops (scope :: outer)
    rw [hops]
    exact ⟨.refl hg, hscope⟩
  | succ n ih =>
    obtain ⟨op, rest, rfl⟩ := List.exists_of_length_succ _ hn
    have hrest : rest.length = n := Nat.succ.inj hn
    have hget : (st.region.block b).ops[pos]? = some op := by
      rw [hops, ← hpos, List.getElem?_append_right (Nat.le_refl _), Nat.sub_self]
      rfl
    have hops' : (st.region.block b).ops = (done ++ [op]) ++ rest := by
      rw [hops, List.append_assoc]
      rfl
    have hpos' : (done ++ [op]).length = pos + 1 := by
      rw [List.length_append, hpos]
      rfl
    rw [cseOps, hget]
    dsimp only
    cases hkey : exprKey T op with
    | none => exact ih (pos + 1) scope st hg hb hops' hpos' hrest (hscope.more op)
    | some key =>
      obtain ⟨hpure, -, ⟨r, hresults⟩, -⟩ := exprKey_spec hkey
      simp only [hresults]
      cases hlookup : lookupKey (scope :: outer) key with
      | none =>
        -- The result is entered into the table.
        apply ih (pos + 1) ((key, r) :: scope) st hg hb hops' hpos' hrest
        intro scope' hmem entry hentry
        rcases List.mem_cons.mp hmem with rfl | hmem
        · rcases List.mem_cons.mp hentry with rfl | hentry
          · refine ⟨⟨b, done, op, rest, hops, hb, ?_, hkey⟩, Or.inr (Or.inl ?_)⟩
            · rw [hresults]
              exact List.mem_cons_self
            · simp [hresults]
          · exact hscope.more op scope List.mem_cons_self entry hentry
        · exact hscope.more op scope' (List.mem_cons_of_mem _ hmem) entry hentry
      | some existing =>
        obtain ⟨hbound, havail⟩ := lookup_inScope hscope hlookup
        have hrep : st.region.Replacing b done op rest r existing :=
          ⟨hg, hops, hb, hresults, hpure, havail⟩
        obtain ⟨hwalked, hscope'⟩ := replace_walked hrep hkey hscope hbound
        obtain ⟨-, hdone, hrest'⟩ := hg.not_mem_done hops hrep.mem_results
        have hblock : ((st.region.replaceWith r existing).block b).ops
            = Region.thinned r existing done ++ Region.thinned r existing rest := by
          rw [hrep.block_eq, hops]
          show Region.thinned r existing (done ++ op :: rest) = _
          rw [Region.thinned_append, Region.thinned_drop hrep.mem_results]
        -- The operations after the erased one have moved up.
        have hnext := ih pos scope
          ⟨st.region.replaceWith r existing, st.merges ++ [⟨st.region, r, existing⟩]⟩
          hwalked.verified (by
            show Reaches (st.region.replaceWith r existing).Edge 0 b
            rw [hrep.edge_eq]
            exact hb) hblock
          (by rw [Region.length_thinned hdone, hpos]) (by rw [Region.length_thinned hrest', hrest])
          hscope'
        exact ⟨hwalked.outer.trans hnext.1, hnext.2⟩

end Walk

/-! ## The dominator tree -/

mutual

/-- Every block of the tree is reachable, and strictly dominated by the one
    above it. -/
def DomTree.Valid (edge : Nat → Nat → Prop) : DomTree → Prop
  | .node b children => DomTree.Below edge b children

def DomTree.Below (edge : Nat → Nat → Prop) (b : Nat) : List DomTree → Prop
  | [] => True
  | child :: rest => child.block ≠ b ∧ Dominates edge 0 b child.block ∧
    Reaches edge 0 child.block ∧ child.Valid edge ∧ DomTree.Below edge b rest

end

/-- The tree is a dominator tree of the function. -/
structure DomTree.For (dom : DomTree) (g : Region) : Prop where
  root : dom.block = 0
  valid : dom.Valid g.Edge

theorem InScope.children {T : AttrTable} {g : Region} {b : Nat} {scopes : List Scope}
    (h : InScope T g b (g.block b).ops scopes) (hb : g.Reached b) {children : List DomTree}
    (hbelow : DomTree.Below g.Edge b children) :
    ∀ child ∈ children, InScope T g child.block [] scopes := by
  induction children with
  | nil => exact fun _ hchild => absurd hchild List.not_mem_nil
  | cons child rest ih =>
    obtain ⟨hne, hdom, -, -, hrest⟩ := hbelow
    intro child' hchild'
    rcases List.mem_cons.mp hchild' with rfl | hchild'
    · exact h.child (List.append_nil _).symm hne hdom hb
    · exact ih hrest child' hchild'

mutual

theorem cseTree_walked (T : AttrTable) (dom : DomTree) (outer : List Scope) (st : GvnState)
    (hg : st.region.Verified) (hb : st.region.Reached dom.block) (hdom : dom.Valid st.region.Edge)
    (hscope : InScope T st.region dom.block [] outer) :
    Walked T outer st (cseTree T dom outer st) := by
  match dom with
  | .node b children =>
    rw [cseTree]
    have hstart : InScope T st.region b [] ([] :: outer) := by
      intro scope hmem entry hentry
      rcases List.mem_cons.mp hmem with rfl | hmem
      · exact absurd hentry List.not_mem_nil
      · exact hscope scope hmem entry hentry
    obtain ⟨hwalked, hend⟩ := cseOps_walked (b := b) _ 0 [] st hg hb rfl rfl rfl hstart
    have hdom' : DomTree.Below (cseOps T b (st.region.block b).ops.length 0 outer [] st).2.region.Edge
        b children := by
      rw [hwalked.edge_eq]
      exact hdom
    have hb' : (cseOps T b (st.region.block b).ops.length 0 outer [] st).2.region.Reached b := by
      unfold Region.Reached
      rw [hwalked.edge_eq]
      exact hb
    exact hwalked.trans
      (cseTrees_walked T children b _ _ hwalked.verified hdom' (hend.children hb' hdom')).outer

theorem cseTrees_walked (T : AttrTable) (children : List DomTree) (b : Nat) (outer : List Scope)
    (st : GvnState) (hg : st.region.Verified) (hdom : DomTree.Below st.region.Edge b children)
    (hscope : ∀ child ∈ children, InScope T st.region child.block [] outer) :
    Walked T outer st (cseTrees T children outer st) := by
  match children with
  | [] => exact .refl hg
  | child :: rest =>
    rw [cseTrees]
    obtain ⟨-, -, hreached, hchild, hrest⟩ := hdom
    have hwalked := cseTrees_walked T rest b outer st hg hrest fun child' hchild' =>
      hscope child' (List.mem_cons_of_mem _ hchild')
    apply hwalked.trans
    apply cseTree_walked T child outer _ hwalked.verified
    · unfold Region.Reached
      rw [hwalked.edge_eq]
      exact hreached
    · rw [hwalked.edge_eq]
      exact hchild
    · exact hwalked.inScope hg.toSsa (hscope child List.mem_cons_self)

end

/-! ## Merges -/

/-- The operation that stays makes no promise, of those keys leave out, that
    the erased one does not make. -/
def Merge.KeepsPromises (T : AttrTable) (m : Merge) : Prop :=
  ∀ op ∈ m.region.ops, ∀ op' ∈ m.region.ops, m.existing ∈ op.results → m.replaced ∈ op'.results →
    (op.attrs T).KeptBy (op'.attrs T)

instance (T : AttrTable) (m : Merge) : Decidable (m.KeepsPromises T) :=
  inferInstanceAs (Decidable (∀ op ∈ m.region.ops, ∀ op' ∈ m.region.ops, _ → _ → _))

theorem cse_merges_ok {T : AttrTable} {g : Region} (hg : g.Verified) {dom : DomTree}
    (hdom : dom.For g) : ∀ m ∈ (cse T g dom).merges, m.Ok T := by
  have hwalked : Walked T [] ⟨g, []⟩ (cse T g dom) := by
    apply cseTree_walked T dom [] ⟨g, []⟩ hg _ hdom.valid
    · exact fun _ hscope => absurd hscope List.not_mem_nil
    · rw [hdom.root]
      exact ⟨_, .entry⟩
  intro m hm
  rcases hwalked.merges m hm with hm | hok
  · exact absurd hm List.not_mem_nil
  · exact hok

/-- In every state an execution of the function gets to, the value that stays
    is at hand wherever the replaced one is, equals it unless that one is
    poison, and is poison only if that one is. -/
theorem Merge.Ok.refined {T : AttrTable} {m : Merge} (hm : m.Ok T) (hkept : m.KeepsPromises T)
    {M : PoisonMachine} {e : M.Entry} {s : M.State} (hs : M.Reachable T m.region e s)
    {done : List Op} (hops : (m.region.block s.block).ops = done ++ s.rest)
    (havail : m.region.Available s.block done m.replaced) :
    m.region.Available s.block done m.existing ∧
      ∃ x y, s.env m.replaced = some x ∧ s.env m.existing = some y ∧ x.RefinedBy y := by
  obtain ⟨b, before, op, rest, key, a, hsplit, hb, hresults, hkey, hbound, hexisting⟩ := hm.located
  obtain ⟨before', op', rest', hsplit', ha, hv, hkey'⟩ := hbound
  have hssa := hm.verified.toSsa
  have hr : m.replaced ∈ op.results := by
    rw [hresults]
    exact List.mem_cons_self
  obtain ⟨-, hreached⟩ := (hs.toFramed.located hssa).choose_spec
  have havail' := hssa.available_trans hsplit hr hexisting hops hreached havail
  refine ⟨havail', ?_⟩
  obtain ⟨hpure, hsuccs, -, hoperands, -⟩ := exprKey_spec hkey
  obtain ⟨hpure', hsuccs', ⟨v, hresults'⟩, hoperands', -⟩ := exprKey_spec hkey'
  rw [hresults'] at hv
  obtain rfl := List.mem_singleton.mp hv
  -- Both are what their operations evaluate to on the same operands.
  obtain ⟨args, x, hargs, heval, hx⟩ := hs.evaluated hssa hm.verified.uses hsplit hb hpure hresults
    hsuccs hops havail
  obtain ⟨args', y, hargs', heval', hy⟩ := hs.evaluated hssa hm.verified.uses hsplit' ha hpure'
    hresults' hsuccs' hops havail'
  obtain rfl : args = args' := by
    rw [hoperands, ← hoperands'] at hargs
    exact Option.some.inj (hargs.symm.trans hargs')
  have hflags : (op'.attrs T).KeptBy (op.attrs T) := by
    apply hkept op' _ op _ (hresults' ▸ hv) hr
    · exact Region.mem_ops_of_block (by rw [hsplit']; simp)
    · exact Region.mem_ops_of_block (by rw [hsplit]; simp)
  exact ⟨x, y, hx, hy, exprKey_refined hkey' hkey hflags M.toTarget args x y heval heval'⟩

/-- A replaced value and the one that replaces it, wherever the first may be
    used: they are equal unless the first is poison, and the second is poison
    only if the first is, provided the operation that stays makes no promise
    the erased one does not make. -/
theorem cse_refines {T : AttrTable} {g : Region} (hg : g.Verified) {dom : DomTree}
    (hdom : dom.For g) {m : Merge} (hm : m ∈ (cse T g dom).merges) (hkept : m.KeepsPromises T)
    {M : PoisonMachine} {e : M.Entry} {s : M.State} (hs : M.Reachable T m.region e s)
    {done : List Op} (hops : (m.region.block s.block).ops = done ++ s.rest)
    (havail : m.region.Available s.block done m.replaced) :
    m.region.Available s.block done m.existing ∧
      ∃ x y, s.env m.replaced = some x ∧ s.env m.existing = some y ∧
        (x ≠ .poison → y = x) ∧ (y = .poison → x = .poison) := by
  obtain ⟨hexisting, x, y, hx, hy, hrefined⟩ :=
    (cse_merges_ok hg hdom m hm).refined hkept hs hops havail
  refine ⟨hexisting, x, y, hx, hy, fun hne => hrefined.resolve_left hne, fun hpoison => ?_⟩
  rcases hrefined with hx | heq
  · exact hx
  · rw [← heq, hpoison]

/-! ## A promise that is not in the key -/

namespace ZextTwice

def x : Value := ⟨0, .i 8⟩
def a : Value := ⟨1, .i 32⟩
def b : Value := ⟨2, .i 32⟩

/-- Operations tagged `1` have the `nneg` flag. -/
def attrs : AttrTable := fun tag => { nneg := tag == 1 }

/-- The parameter is extended twice, the first time with `nneg` or not. -/
def region (nneg : Bool) : Region :=
  ⟨[⟨[x], [.generic .zext nneg.toNat [a] [x] [], .generic .zext 0 [b] [x] [],
    .generic .ret 0 [] [b] []]⟩]⟩

theorem region_verified (nneg : Bool) : (region nneg).Verified := by
  refine ⟨?_, Region.usesDominated_of_local ?_, ?_⟩ <;> cases nneg <;> decide

/-- Floating point and pointers do not occur. -/
def machine : PoisonMachine where
  fbin _ _ _ x _ := x
  fneg _ x := x
  fcmp _ _ _ _ _ := false
  isNan _ _ := false
  isInf _ _ := false
  cast _ _ _ x := some x
  icmpPointer _ _ _ := none
  gepOffset _ _ := 0
  World := Unit
  exec _ _ _ := none

def entry : machine.Entry := ⟨[.int 255], ()⟩

/-- Before the return. -/
def computed (y : PVal) : machine.State :=
  ⟨0, [.generic .ret 0 [] [b] []],
    PVals.setAll (fun _ => none) [x, a, b] [.int 255, y, .int 255], ()⟩

theorem computed_reachable {nneg : Bool} {y : PVal}
    (h : Op.evalPure attrs machine.toTarget (.generic .zext nneg.toNat [a] [x] []) [.int 255]
      = some y) : machine.Reachable attrs (region nneg) entry (computed y) := by
  have hfirst : machine.Step attrs (region nneg) (entry.state (region nneg))
      ⟨0, [.generic .zext 0 [b] [x] [], .generic .ret 0 [] [b] []],
        PVals.setAll (fun _ => none) [x, a] [.int 255, y], ()⟩ :=
    .pure rfl rfl (show _ = some [.int 255] from rfl) h
  have hsecond : machine.Step attrs (region nneg)
      ⟨0, [.generic .zext 0 [b] [x] [], .generic .ret 0 [] [b] []],
        PVals.setAll (fun _ => none) [x, a] [.int 255, y], ()⟩ (computed y) :=
    .pure rfl rfl (show _ = some [.int 255] from rfl) rfl
  exact .step (.step .entry hfirst) hsecond

end ZextTwice

open ZextTwice in
theorem cse_refines_zext_twice :
    (region false).Available 0 (((region false).block 0).ops.take 2) a ∧
      ∃ x y, (computed (.int 255)).env b = some x ∧ (computed (.int 255)).env a = some y ∧
        (x ≠ .poison → y = x) ∧ (y = .poison → x = .poison) :=
  cse_refines (T := attrs) (region_verified false)
    (show DomTree.For (.node 0 []) (region false) from ⟨rfl, trivial⟩)
    (m := ⟨region false, b, a⟩) (by decide) (by decide) (computed_reachable rfl)
    (show _ = ((region false).block 0).ops.take 2 ++ _ from rfl) (Or.inr (Or.inl (by decide)))

open ZextTwice in
/-- The second extension is replaced by the first, which has a promise of its
    own: with the sign bit set, 255 is replaced by poison. -/
theorem cse_drops_promise :
    ∃ m ∈ (cse attrs (region true) (.node 0 [])).merges, (region true).Verified ∧
      machine.Reachable attrs m.region entry (computed .poison) ∧
      m.region.Available 0 (((region true).block 0).ops.take 2) m.replaced ∧
      (computed .poison).env m.replaced = some (.int 255) ∧
      (computed .poison).env m.existing = some .poison :=
  ⟨⟨region true, b, a⟩, by decide, region_verified true, computed_reachable rfl,
    Or.inr (Or.inl (by decide)), rfl, rfl⟩

end Crabbit.Llvm
