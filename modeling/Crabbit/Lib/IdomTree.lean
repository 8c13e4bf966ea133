/-
  Crabbit.Lib.IdomTree

  The iterative computation of immediate dominators.  A state maps nodes to
  candidates; a node's new candidate is the nearest common ancestor of its
  predecessors in the tree of the candidates so far.

  Two things hold of every state.  What strictly dominates a node dominates its
  candidate, so no dominator is ever lost.  And after `j` sweeps in reverse
  post-order a candidate is on every walk with fewer than `j` steps back, so
  that in the end it dominates.
-/

import Crabbit.Lib.DepthFirst
import Mathlib.Logic.Relation

namespace Crabbit.Lib

section IdomTree

variable {V : Type*}

/-! ## Ranks -/

/-- The nodes that can be reached in the order of their ranks, what dominates a
    node and some predecessor of it before it. -/
structure Ranked (edge : V → V → Prop) (entry : V) (rank : V → Nat) (order : List V) : Prop where
  sorted : order.Pairwise fun x y => rank x < rank y
  mem_iff : ∀ v, v ∈ order ↔ Reaches edge entry v
  head : order.head? = some entry
  dominators : ∀ a b, Reaches edge entry b → Dominates edge entry a b → a ≠ b → rank a < rank b
  parent : ∀ b ∈ order, b ≠ entry → ∃ u ∈ order, edge u b ∧ rank u < rank b

/-- The places in a reverse post-order are ranks. -/
theorem ReversePostOrder.ranked [DecidableEq V] {edge : V → V → Prop} {entry : V} {order : List V}
    (h : ReversePostOrder edge entry order) {rank : V → Nat}
    (hrank : ∀ v ∈ order, rank v = order.idxOf v) : Ranked edge entry rank order where
  sorted := by
    rw [List.pairwise_iff_getElem]
    intro i j hi hj hlt
    rw [hrank _ (List.getElem_mem hi), hrank _ (List.getElem_mem hj), h.nodup.idxOf_getElem,
      h.nodup.idxOf_getElem]
    exact hlt
  mem_iff := h.mem_iff
  head := h.head_eq
  dominators a b hb hdom hne := by
    rw [hrank a ((h.mem_iff a).mpr (hdom.reaches hb)), hrank b ((h.mem_iff b).mpr hb)]
    exact h.idxOf_lt hb hdom hne
  parent b hb hne := by
    obtain ⟨before, after, heq⟩ := List.append_of_mem hb
    obtain ⟨u, hu, hedge⟩ := h.parent before b after heq hne
    have huo : u ∈ order := heq ▸ List.mem_append_left _ hu
    have hnodup := h.nodup
    rw [heq] at hnodup
    have hbefore : b ∉ before := fun hmem =>
      (List.nodup_append.mp hnodup).2.2 b hmem b List.mem_cons_self rfl
    refine ⟨u, huo, hedge, ?_⟩
    rw [hrank u huo, hrank b hb, heq, List.idxOf_append_of_mem hu,
      List.idxOf_append_of_notMem hbefore]
    exact Nat.lt_of_lt_of_le (List.idxOf_lt_length_of_mem hu) (Nat.le_add_right _ _)

namespace Ranked

variable {edge : V → V → Prop} {entry : V} {rank : V → Nat} {order : List V}

/-- Nodes of the same rank are the same. -/
theorem inj (h : Ranked edge entry rank order) {a b : V} (ha : Reaches edge entry a)
    (hb : Reaches edge entry b) (heq : rank a = rank b) : a = b := by
  obtain ⟨i, hi, rfl⟩ := List.getElem_of_mem ((h.mem_iff a).mpr ha)
  obtain ⟨j, hj, rfl⟩ := List.getElem_of_mem ((h.mem_iff b).mpr hb)
  have hsorted := List.pairwise_iff_getElem.mp h.sorted
  rcases Nat.lt_trichotomy i j with hlt | rfl | hgt
  · have := hsorted i j hi hj hlt
    omega
  · rfl
  · have := hsorted j i hj hi hgt
    omega

theorem le_of_dominates (h : Ranked edge entry rank order) {a b : V} (hb : Reaches edge entry b)
    (hdom : Dominates edge entry a b) : rank a ≤ rank b := by
  by_cases hne : a = b
  · exact Nat.le_of_eq (congrArg rank hne)
  · exact Nat.le_of_lt (h.dominators a b hb hdom hne)

theorem entry_le (h : Ranked edge entry rank order) {b : V} (hb : Reaches edge entry b) :
    rank entry ≤ rank b := h.le_of_dominates hb (entry_dominates b)

end Ranked

/-! ## Candidates -/

/-- Following candidates from `v` leads to `z`. -/
def Ancestor (idom : V → Option V) (z v : V) : Prop :=
  Relation.ReflTransGen (fun x y => idom x = some y) v z

/-- What always holds of the candidates. -/
structure Candidates (edge : V → V → Prop) (entry : V) (rank : V → Nat) (idom : V → Option V) :
    Prop where
  root : idom entry = some entry
  reaches : ∀ v z, idom v = some z → Reaches edge entry v
  processed : ∀ v z, idom v = some z → (idom z).isSome = true
  lt : ∀ v z, idom v = some z → v ≠ entry → rank z < rank v
  /-- No strict dominator is lost. -/
  dominated : ∀ v z, idom v = some z → ∀ d, d ≠ v → Dominates edge entry d v →
    Dominates edge entry d z

namespace Candidates

variable {edge : V → V → Prop} {entry : V} {rank : V → Nat} {idom : V → Option V}

theorem reaches_of_isSome (h : Candidates edge entry rank idom) {v : V} (hv : (idom v).isSome) :
    Reaches edge entry v := by
  obtain ⟨z, hz⟩ := Option.isSome_iff_exists.mp hv
  exact h.reaches v z hz

theorem le (h : Candidates edge entry rank idom) {v z : V} (hz : idom v = some z) :
    rank z ≤ rank v := by
  by_cases hv : v = entry
  · subst hv
    rw [h.root] at hz
    exact Nat.le_of_eq (congrArg rank (Option.some.inj hz).symm)
  · exact Nat.le_of_lt (h.lt v z hz hv)

/-- An ancestor has a candidate too and does not come later. -/
theorem ancestor (h : Candidates edge entry rank idom) {z v : V} (hz : Ancestor idom z v)
    (hv : (idom v).isSome) : (idom z).isSome ∧ rank z ≤ rank v := by
  induction hz with
  | refl => exact ⟨hv, Nat.le_refl _⟩
  | tail _ hstep ih => exact ⟨h.processed _ _ hstep, Nat.le_trans (h.le hstep) ih.2⟩

end Candidates

/-! ## Common ancestors -/

/-- `while rank(a) > bound { a = idom(a) }` -/
def climb (idom : V → Option V) (rank : V → Nat) (bound : Nat) : Nat → V → Option V
  | 0, _ => none
  | fuel + 1, a => if bound < rank a then (idom a).bind (climb idom rank bound fuel) else some a

/-- The two nodes climb in turn until they meet. -/
def intersect [DecidableEq V] (idom : V → Option V) (rank : V → Nat) : Nat → V → V → Option V
  | 0, _, _ => none
  | fuel + 1, a, b =>
    if a = b then some a
    else (climb idom rank (rank b) fuel a).bind fun a =>
      (climb idom rank (rank a) fuel b).bind fun b => intersect idom rank fuel a b

/-- A common ancestor that everything that dominates both dominates. -/
structure Meets (edge : V → V → Prop) (entry : V) (idom : V → Option V) (a b z : V) : Prop where
  processed : (idom z).isSome = true
  left : Ancestor idom z a
  right : Ancestor idom z b
  below : ∀ d, Dominates edge entry d a → Dominates edge entry d b → Dominates edge entry d z

section Meet

variable {edge : V → V → Prop} {entry : V} {rank : V → Nat} {order : List V} {idom : V → Option V}
  (hranked : Ranked edge entry rank order) (h : Candidates edge entry rank idom)
include hranked h

theorem exists_climb {bound : Nat} (hbound : rank entry ≤ bound) (fuel : Nat) {a : V}
    (ha : (idom a).isSome) (hfuel : rank a < fuel) :
    ∃ z, climb idom rank bound fuel a = some z ∧ (idom z).isSome ∧ Ancestor idom z a ∧
      rank z ≤ bound ∧ rank z ≤ rank a ∧
      ∀ d, Dominates edge entry d a → rank d ≤ bound → Dominates edge entry d z := by
  induction fuel generalizing a with
  | zero => exact absurd hfuel (Nat.not_lt_zero _)
  | succ fuel ih =>
    rw [climb]
    by_cases hlt : bound < rank a
    · obtain ⟨y, hy⟩ := Option.isSome_iff_exists.mp ha
      have hentry : a ≠ entry := by
        rintro rfl
        omega
      have hylt := h.lt a y hy hentry
      obtain ⟨z, hz, hsome, hanc, hle, hrank, hdom⟩ := ih (h.processed a y hy) (by omega)
      refine ⟨z, ?_, hsome, .head hy hanc, hle, by omega, fun d hd hdle => hdom d ?_ hdle⟩
      · rw [if_pos hlt, hy]
        exact hz
      · -- a node above the bound is no dominator
        have hne : d ≠ a := by
          rintro rfl
          omega
        exact h.dominated a y hy d hne hd
    · exact ⟨a, if_neg hlt, ha, .refl, by omega, Nat.le_refl _, fun d hd _ => hd⟩

theorem exists_intersect [DecidableEq V] {fuel : Nat} {a b : V} (ha : (idom a).isSome)
    (hb : (idom b).isSome) (hfuel : rank a + rank b + 1 < fuel) :
    ∃ z, intersect idom rank fuel a b = some z ∧ Meets edge entry idom a b z := by
  induction fuel generalizing a b with
  | zero => exact absurd hfuel (Nat.not_lt_zero _)
  | succ fuel ih =>
    rw [intersect]
    by_cases hab : a = b
    · subst hab
      exact ⟨a, if_pos rfl, ha, .refl, .refl, fun _ hd _ => hd⟩
    · have hra := h.reaches_of_isSome ha
      have hrb := h.reaches_of_isSome hb
      have hne : rank a ≠ rank b := fun heq => hab (hranked.inj hra hrb heq)
      obtain ⟨a', hclimbA, hsomeA, hancA, hleA, hrankA, hdomA⟩ :=
        exists_climb hranked h (hranked.entry_le hrb) fuel ha (by omega)
      have hra' := h.reaches_of_isSome hsomeA
      obtain ⟨b', hclimbB, hsomeB, hancB, hleB, hrankB, hdomB⟩ :=
        exists_climb hranked h (hranked.entry_le hra') fuel hb (by omega)
      obtain ⟨z, hz, hmeets⟩ := ih hsomeA hsomeB (by omega)
      refine ⟨z, ?_, hmeets.processed, hancA.trans hmeets.left, hancB.trans hmeets.right, ?_⟩
      · rw [if_neg hab, hclimbA]
        change (climb idom rank (rank a') fuel b).bind _ = _
        rw [hclimbB]
        exact hz
      · intro d hda hdb
        have hda' := hdomA d hda (hranked.le_of_dominates hrb hdb)
        exact hmeets.below d hda' (hdomB d hdb (hranked.le_of_dominates hra' hda'))

end Meet

/-- Meeting one node after the other. -/
theorem exists_foldlM_meet {edge : V → V → Prop} {entry : V} {idom : V → Option V}
    {meet : V → V → Option V}
    (hmeet : ∀ a b, (idom a).isSome → (idom b).isSome →
      ∃ z, meet a b = some z ∧ Meets edge entry idom a b z)
    {ps : List V} {p : V} (hp : (idom p).isSome) (hps : ∀ q ∈ ps, (idom q).isSome) :
    ∃ z, ps.foldlM meet p = some z ∧ (idom z).isSome ∧ (∀ q ∈ p :: ps, Ancestor idom z q) ∧
      ∀ d, (∀ q ∈ p :: ps, Dominates edge entry d q) → Dominates edge entry d z := by
  induction ps generalizing p with
  | nil =>
    refine ⟨p, rfl, hp, fun q hq => ?_, fun d hd => hd p List.mem_cons_self⟩
    rw [List.mem_singleton.mp hq]
    exact .refl
  | cons q ps ih =>
    obtain ⟨y, hy, hmeets⟩ := hmeet p q hp (hps q List.mem_cons_self)
    obtain ⟨z, hz, hsome, hanc, hdom⟩ := ih hmeets.processed fun r hr =>
      hps r (List.mem_cons_of_mem _ hr)
    have hzy := hanc y List.mem_cons_self
    refine ⟨z, ?_, hsome, fun r hr => ?_, fun d hd => hdom d fun r hr => ?_⟩
    · rw [List.foldlM_cons, hy]
      exact hz
    · rcases List.mem_cons.mp hr with rfl | hr
      · exact hmeets.left.trans hzy
      · rcases List.mem_cons.mp hr with rfl | hr
        · exact hmeets.right.trans hzy
        · exact hanc r (List.mem_cons_of_mem _ hr)
    · rcases List.mem_cons.mp hr with rfl | hr
      · exact hmeets.below d (hd p List.mem_cons_self)
          (hd q (List.mem_cons_of_mem _ List.mem_cons_self))
      · exact hd r (List.mem_cons_of_mem _ (List.mem_cons_of_mem _ hr))

/-! ## One node -/

/-- The nearest common ancestor of the predecessors that have a candidate. -/
structure Nearest (edge : V → V → Prop) (entry : V) (idom : V → Option V) (v z : V) : Prop where
  processed : (idom z).isSome = true
  above : ∀ p, edge p v → (idom p).isSome → Ancestor idom z p
  below : ∀ d, (∀ p, edge p v → (idom p).isSome → Dominates edge entry d p) →
    Dominates edge entry d z

/-- The predecessors that have a candidate, met one after the other. -/
theorem exists_nearest {edge : V → V → Prop} {entry : V} {idom : V → Option V}
    {meet : V → V → Option V}
    (hmeet : ∀ a b, (idom a).isSome → (idom b).isSome →
      ∃ z, meet a b = some z ∧ Meets edge entry idom a b z)
    {v p : V} {ps : List V} (hmem : ∀ q, q ∈ p :: ps ↔ edge q v ∧ (idom q).isSome) :
    ∃ z, Nearest edge entry idom v z ∧ ps.foldlM meet p = some z := by
  have hall : ∀ q ∈ p :: ps, (idom q).isSome := fun q hq => ((hmem q).mp hq).2
  obtain ⟨z, hz, hsome, hanc, hdom⟩ := exists_foldlM_meet hmeet (hall p List.mem_cons_self)
    fun q hq => hall q (List.mem_cons_of_mem _ hq)
  exact ⟨z, ⟨hsome, fun q hq hqs => hanc q ((hmem q).mpr ⟨hq, hqs⟩), fun d hd => hdom d fun q hq =>
    hd q ((hmem q).mp hq).1 ((hmem q).mp hq).2⟩, hz⟩

section Assign

variable {edge : V → V → Prop} {entry : V} {rank : V → Nat} {idom : V → Option V}

theorem Nearest.lt (h : Candidates edge entry rank idom) {v z u : V}
    (hz : Nearest edge entry idom v z) (hedge : edge u v) (hlt : rank u < rank v)
    (hu : (idom u).isSome) : rank z < rank v :=
  Nat.lt_of_le_of_lt (h.ancestor (hz.above u hedge hu) hu).2 hlt

/-- A node takes the nearest common ancestor for its candidate. -/
theorem Candidates.assign [DecidableEq V] (h : Candidates edge entry rank idom) {v z u : V}
    (hv : Reaches edge entry v) (hne : v ≠ entry) (hedge : edge u v) (hlt : rank u < rank v)
    (hu : (idom u).isSome) (hz : Nearest edge entry idom v z) :
    Candidates edge entry rank (Function.update idom v (some z)) where
  root := by
    rw [Function.update_of_ne (Ne.symm hne)]
    exact h.root
  reaches w y hw := by
    by_cases hwv : w = v
    · exact hwv ▸ hv
    · rw [Function.update_of_ne hwv] at hw
      exact h.reaches w y hw
  processed w y hw := by
    have hsome : ∀ x, (idom x).isSome → (Function.update idom v (some z) x).isSome := by
      intro x hx
      by_cases hxv : x = v
      · rw [hxv, Function.update_self]
        rfl
      · rwa [Function.update_of_ne hxv]
    refine hsome y ?_
    by_cases hwv : w = v
    · subst hwv
      rw [Function.update_self] at hw
      exact Option.some.inj hw ▸ hz.processed
    · rw [Function.update_of_ne hwv] at hw
      exact h.processed w y hw
  lt w y hw hwe := by
    by_cases hwv : w = v
    · subst hwv
      rw [Function.update_self] at hw
      exact Option.some.inj hw ▸ hz.lt h hedge hlt hu
    · rw [Function.update_of_ne hwv] at hw
      exact h.lt w y hw hwe
  dominated w y hw d hd hdom := by
    by_cases hwv : w = v
    · subst hwv
      rw [Function.update_self] at hw
      exact Option.some.inj hw ▸ hz.below d fun p hp _ => hdom.pred hd hp
    · rw [Function.update_of_ne hwv] at hw
      exact h.dominated w y hw d hd hdom

end Assign

/-! ## Walks with few steps back -/

/-- A walk with at most so many steps back.  A step forward may be counted too. -/
inductive FewBack (edge : V → V → Prop) (entry : V) (rank : V → Nat) : Nat → V → List V → Prop where
  | entry (k : Nat) : FewBack edge entry rank k entry [entry]
  | forward {k : Nat} {u v : V} {visited : List V} (h : FewBack edge entry rank k u visited)
      (he : edge u v) (hlt : rank u < rank v) : FewBack edge entry rank k v (v :: visited)
  | back {k : Nat} {u v : V} {visited : List V} (h : FewBack edge entry rank k u visited)
      (he : edge u v) : FewBack edge entry rank (k + 1) v (v :: visited)

/-- Every such walk visits `z`. -/
def Within (edge : V → V → Prop) (entry : V) (rank : V → Nat) (k : Nat) (z v : V) : Prop :=
  ∀ visited, FewBack edge entry rank k v visited → z ∈ visited

section FewBack

variable {edge : V → V → Prop} {entry : V} {rank : V → Nat}

theorem FewBack.walk {k : Nat} {v : V} {visited : List V} (h : FewBack edge entry rank k v visited) :
    Walk edge entry v visited := by
  induction h with
  | entry => exact .entry
  | forward _ he _ ih => exact ih.step he
  | back _ he ih => exact ih.step he

theorem FewBack.mono {k k' : Nat} (hk : k ≤ k') {v : V} {visited : List V}
    (h : FewBack edge entry rank k v visited) : FewBack edge entry rank k' v visited := by
  induction h generalizing k' with
  | entry => exact .entry k'
  | forward _ he hlt ih => exact .forward (ih hk) he hlt
  | back _ he ih =>
    obtain ⟨k', rfl⟩ : ∃ n, k' = n + 1 := ⟨k' - 1, by omega⟩
    exact .back (ih (by omega)) he

/-- A walk to a node on the way. -/
theorem FewBack.visit {k : Nat} {u v : V} {visited : List V}
    (h : FewBack edge entry rank k v visited) (hu : u ∈ visited) :
    ∃ before, FewBack edge entry rank k u before ∧ ∀ x ∈ before, x ∈ visited := by
  induction h with
  | entry k =>
    obtain rfl := List.mem_singleton.mp hu
    exact ⟨_, .entry k, fun _ hx => hx⟩
  | forward h he hlt ih =>
    rcases List.mem_cons.mp hu with rfl | hu
    · exact ⟨_, h.forward he hlt, fun _ hx => hx⟩
    · obtain ⟨before, hbefore, hsub⟩ := ih hu
      exact ⟨before, hbefore, fun x hx => List.mem_cons_of_mem _ (hsub x hx)⟩
  | back h he ih =>
    rcases List.mem_cons.mp hu with rfl | hu
    · exact ⟨_, h.back he, fun _ hx => hx⟩
    · obtain ⟨before, hbefore, hsub⟩ := ih hu
      exact ⟨before, hbefore.mono (Nat.le_succ _), fun x hx => List.mem_cons_of_mem _ (hsub x hx)⟩

/-- Every walk has few steps back, for some number. -/
theorem Walk.fewBack (rank : V → Nat) {v : V} {visited : List V} (h : Walk edge entry v visited) :
    ∃ k, FewBack edge entry rank k v visited := by
  induction h with
  | entry => exact ⟨0, .entry 0⟩
  | step _ he ih =>
    obtain ⟨k, hk⟩ := ih
    exact ⟨k + 1, hk.back he⟩

theorem Within.mono {k k' : Nat} (hk : k ≤ k') {z v : V} (h : Within edge entry rank k' z v) :
    Within edge entry rank k z v := fun visited hwalk => h visited (hwalk.mono hk)

theorem Within.trans {k : Nat} {a b c : V} (hab : Within edge entry rank k a b)
    (hbc : Within edge entry rank k b c) : Within edge entry rank k a c := by
  intro visited h
  obtain ⟨before, hbefore, hsub⟩ := h.visit (hbc visited h)
  exact hsub a (hab before hbefore)

/-- For finitely many pairs one number is enough. -/
theorem exists_within (edge : V → V → Prop) (entry : V) (rank : V → Nat) (pairs : List (V × V)) :
    ∃ k, ∀ p ∈ pairs, Within edge entry rank k p.1 p.2 → Dominates edge entry p.1 p.2 := by
  induction pairs with
  | nil => exact ⟨0, fun _ hp => absurd hp List.not_mem_nil⟩
  | cons p pairs ih =>
    obtain ⟨k, hk⟩ := ih
    by_cases hdom : Dominates edge entry p.1 p.2
    · refine ⟨k, fun q hq hwithin => ?_⟩
      rcases List.mem_cons.mp hq with rfl | hq
      · exact hdom
      · exact hk q hq hwithin
    · -- a walk that avoids the first, and the steps back it takes
      obtain ⟨visited, hwalk, hnot⟩ : ∃ visited, Walk edge entry p.2 visited ∧ p.1 ∉ visited := by
        by_contra hall
        exact hdom fun visited hwalk => by_contra fun hnot => hall ⟨visited, hwalk, hnot⟩
      obtain ⟨n, hn⟩ := hwalk.fewBack rank
      refine ⟨max k n, fun q hq hwithin => ?_⟩
      rcases List.mem_cons.mp hq with rfl | hq
      · exact absurd (hwithin visited (hn.mono (Nat.le_max_right _ _))) hnot
      · exact hk q hq (hwithin.mono (Nat.le_max_left _ _))

end FewBack

/-! ## Sweeps -/

/-- The candidates in the sweep after `j` others, when the nodes in `done` had
    their turn: they are on every walk with at most `j` steps back, those of the
    other nodes on every one with fewer. -/
structure Settled (edge : V → V → Prop) (entry : V) (rank : V → Nat) (j : Nat) (done : List V)
    (idom : V → Option V) : Prop where
  processed : ∀ v, Reaches edge entry v → 0 < j ∨ v ∈ done → (idom v).isSome = true
  within : ∀ v z k, idom v = some z → v ≠ entry → k < j ∨ (k = j ∧ v ∈ done) →
    Within edge entry rank k z v

section Sweep

variable {edge : V → V → Prop} {entry : V} {rank : V → Nat} {order : List V}

/-- Ancestors had their turn before. -/
theorem Settled.ancestor {j : Nat} {done : List V} {idom : V → Option V}
    (h : Candidates edge entry rank idom) (hs : Settled edge entry rank j done idom)
    (hclosed : ∀ u v, Reaches edge entry u → v ∈ done → rank u < rank v → u ∈ done) {z v : V}
    (hz : Ancestor idom z v) {k : Nat} (hk : k < j ∨ (k = j ∧ v ∈ done)) :
    Within edge entry rank k z v := by
  induction hz using Relation.ReflTransGen.head_induction_on with
  | refl => exact fun visited hwalk => hwalk.walk.mem
  | @head v y hstep hrest ih =>
    by_cases hv : v = entry
    · subst hv
      rw [h.root] at hstep
      obtain rfl := Option.some.inj hstep
      exact ih hk
    · have hy := h.reaches_of_isSome (h.processed v y hstep)
      have hlt := h.lt v y hstep hv
      have hk' : k < j ∨ (k = j ∧ y ∈ done) :=
        hk.imp_right fun ⟨hkj, hdone⟩ => ⟨hkj, hclosed y v hy hdone hlt⟩
      exact (ih hk').trans (hs.within v y k hstep hv hk)

/-- What was done when a node has its turn is what has a lower rank. -/
theorem Ranked.mem_done (hranked : Ranked edge entry rank order) {done rest : List V} {v u : V}
    (horder : order = done ++ v :: rest) (hu : Reaches edge entry u) (hlt : rank u < rank v) :
    u ∈ done := by
  have hmem := (hranked.mem_iff u).mpr hu
  have hsorted := hranked.sorted
  rw [horder] at hmem hsorted
  rcases List.mem_append.mp hmem with hmem | hmem
  · exact hmem
  · have hle : rank v ≤ rank u := by
      rcases List.mem_cons.mp hmem with rfl | hmem
      · exact Nat.le_refl _
      · have := (List.pairwise_cons.mp (List.pairwise_append.mp hsorted).2.1).1 u hmem
        omega
    omega

theorem Ranked.lt_of_mem_done (hranked : Ranked edge entry rank order) {done rest : List V} {v u : V}
    (horder : order = done ++ v :: rest) (hu : u ∈ done) : rank u < rank v := by
  have hsorted := hranked.sorted
  rw [horder] at hsorted
  exact (List.pairwise_append.mp hsorted).2.2 u hu v List.mem_cons_self

/-- The turn of one node. -/
theorem Settled.assign [DecidableEq V] (hranked : Ranked edge entry rank order) {j : Nat}
    {done rest : List V} {v z : V} (horder : order = done ++ v :: rest) {idom : V → Option V}
    (h : Candidates edge entry rank idom) (hs : Settled edge entry rank j done idom)
    (hne : v ≠ entry) (hz : Nearest edge entry idom v z) :
    Settled edge entry rank j (done ++ [v]) (Function.update idom v (some z)) where
  processed w hw hturn := by
    by_cases hwv : w = v
    · rw [hwv, Function.update_self]
      rfl
    · rw [Function.update_of_ne hwv]
      refine hs.processed w hw (hturn.imp_right fun hmem => ?_)
      exact (List.mem_append.mp hmem).resolve_right fun hmem => hwv (List.mem_singleton.mp hmem)
  within w y k hw hwe hk := by
    have hclosed : ∀ u x, Reaches edge entry u → x ∈ done → rank u < rank x → u ∈ done :=
      fun u x hu hx hlt => hranked.mem_done horder hu
        (Nat.lt_trans hlt (hranked.lt_of_mem_done horder hx))
    by_cases hwv : w = v
    · subst hwv
      rw [Function.update_self] at hw
      obtain rfl := Option.some.inj hw
      have hkj : k ≤ j := by omega
      intro visited hwalk
      cases hwalk with
      | entry => exact absurd rfl hwe
      | @forward _ u _ _ hwalk he hlt =>
        have hu : Reaches edge entry u := ⟨_, hwalk.walk⟩
        have hdone := hranked.mem_done horder hu hlt
        have hanc := hz.above u he (hs.processed u hu (.inr hdone))
        have hku : k < j ∨ (k = j ∧ u ∈ done) := by
          rcases Nat.lt_or_eq_of_le hkj with hkj | hkj
          · exact .inl hkj
          · exact .inr ⟨hkj, hdone⟩
        exact List.mem_cons_of_mem _ (hs.ancestor h hclosed hanc hku _ hwalk)
      | @back k u _ _ hwalk he =>
        have hu : Reaches edge entry u := ⟨_, hwalk.walk⟩
        have hanc := hz.above u he (hs.processed u hu (.inl (by omega)))
        exact List.mem_cons_of_mem _ (hs.ancestor h hclosed hanc (.inl (by omega)) _ hwalk)
    · rw [Function.update_of_ne hwv] at hw
      refine hs.within w y k hw hwe (hk.imp_right fun ⟨hkj, hmem⟩ => ⟨hkj, ?_⟩)
      exact (List.mem_append.mp hmem).resolve_right fun hmem => hwv (List.mem_singleton.mp hmem)

/-- What a program does at a node: it looks for the nearest common ancestor and
    raises a flag if that is a new candidate. -/
def FindsNearest [DecidableEq V] (edge : V → V → Prop) (entry : V) (rank : V → Nat)
    (step : (V → Option V) × Bool → V → Option ((V → Option V) × Bool)) : Prop :=
  ∀ idom changed v, Candidates edge entry rank idom → Reaches edge entry v → v ≠ entry →
    (∃ u, edge u v ∧ (idom u).isSome) → ∃ z, Nearest edge entry idom v z ∧
      step (idom, changed) v =
        some (Function.update idom v (some z), changed || decide (idom v ≠ some z))

variable [DecidableEq V] {step : (V → Option V) × Bool → V → Option ((V → Option V) × Bool)}

theorem exists_sweep (hranked : Ranked edge entry rank order)
    (hstep : FindsNearest edge entry rank step) {j : Nat} {done rest : List V}
    (horder : order = done ++ rest) (hdone : entry ∈ done) {idom : V → Option V}
    (h : Candidates edge entry rank idom) (hs : Settled edge entry rank j done idom)
    (changed : Bool) :
    ∃ idom' changed', rest.foldlM step (idom, changed) = some (idom', changed') ∧
      Candidates edge entry rank idom' ∧ Settled edge entry rank j order idom' ∧
      (∀ v ∉ rest, idom' v = idom v) ∧ (changed' = false ↔ changed = false ∧ idom' = idom) := by
  induction rest generalizing done idom changed with
  | nil =>
    rw [List.append_nil] at horder
    exact ⟨idom, changed, rfl, h, horder ▸ hs, fun _ _ => rfl, (and_iff_left rfl).symm⟩
  | cons v rest ih =>
    have hv : Reaches edge entry v :=
      (hranked.mem_iff v).mp (horder ▸ List.mem_append_right _ List.mem_cons_self)
    have hentry := hranked.lt_of_mem_done horder hdone
    have hne : v ≠ entry := by
      rintro rfl
      omega
    have hvrest : v ∉ rest := by
      intro hmem
      have hsorted := hranked.sorted
      rw [horder] at hsorted
      have := (List.pairwise_cons.mp (List.pairwise_append.mp hsorted).2.1).1 v hmem
      omega
    obtain ⟨u, hu, hedge, hlt⟩ := hranked.parent v ((hranked.mem_iff v).mpr hv) hne
    have hur := (hranked.mem_iff u).mp hu
    have husome := hs.processed u hur (.inr (hranked.mem_done horder hur hlt))
    obtain ⟨z, hz, hrun⟩ := hstep idom changed v h hv hne ⟨u, hedge, husome⟩
    obtain ⟨idom', changed', hfold, h', hs', hsame, hflag⟩ :=
      ih (by rw [horder, List.append_assoc, List.singleton_append])
        (List.mem_append_left _ hdone) (h.assign hv hne hedge hlt husome hz)
        (hs.assign hranked horder h hne hz) (changed || decide (idom v ≠ some z))
    refine ⟨idom', changed', ?_, h', hs', fun w hw => ?_, hflag.trans ⟨?_, ?_⟩⟩
    · rw [List.foldlM_cons, hrun]
      exact hfold
    · rw [hsame w fun hmem => hw (List.mem_cons_of_mem _ hmem), Function.update_of_ne]
      rintro rfl
      exact hw List.mem_cons_self
    · rintro ⟨hchanged, rfl⟩
      rw [Bool.or_eq_false_iff, decide_eq_false_iff_not, not_not] at hchanged
      exact ⟨hchanged.1, by rw [← hchanged.2, Function.update_eq_self]⟩
    · rintro ⟨rfl, rfl⟩
      -- the node keeps the candidate of its turn to the end of the sweep
      have hvz : idom' v = some z := by rw [hsame v hvrest, Function.update_self]
      rw [hvz, decide_eq_false (fun hnot => hnot rfl), ← hvz, Function.update_eq_self]
      exact ⟨rfl, rfl⟩

/-! ## The tree -/

/-- Another node that dominates, and that all others do. -/
def ImmediatelyDominates (edge : V → V → Prop) (entry z v : V) : Prop :=
  z ≠ v ∧ Dominates edge entry z v ∧
    ∀ d, d ≠ v → Dominates edge entry d v → Dominates edge entry d z

/-- Each node that can be reached has its immediate dominator. -/
structure IsIdom (edge : V → V → Prop) (entry : V) (idom : V → Option V) : Prop where
  root : idom entry = some entry
  isSome_iff : ∀ v, (idom v).isSome = true ↔ Reaches edge entry v
  immediate : ∀ v z, idom v = some z → v ≠ entry → ImmediatelyDominates edge entry z v

omit [DecidableEq V] in
theorem IsIdom.unique {idom idom' : V → Option V} (h : IsIdom edge entry idom)
    (h' : IsIdom edge entry idom') : idom = idom' := by
  funext v
  by_cases hv : Reaches edge entry v
  · obtain ⟨z, hz⟩ := Option.isSome_iff_exists.mp ((h.isSome_iff v).mpr hv)
    obtain ⟨z', hz'⟩ := Option.isSome_iff_exists.mp ((h'.isSome_iff v).mpr hv)
    by_cases hne : v = entry
    · rw [hne, h.root, h'.root]
    · obtain ⟨hzv, hdom, hall⟩ := h.immediate v z hz hne
      obtain ⟨hzv', hdom', hall'⟩ := h'.immediate v z' hz' hne
      have heq : z = z' := (hall' z hzv hdom).antisymm (hall z' hzv' hdom') (hdom'.reaches hv)
      rw [hz, hz', heq]
  · have hnone : ∀ f : V → Option V, (∀ v, (f v).isSome = true ↔ Reaches edge entry v) →
        f v = none := fun f hf => by
      cases hfv : f v with
      | none => rfl
      | some z => exact absurd ((hf v).mp (by rw [hfv]; rfl)) hv
    rw [hnone idom h.isSome_iff, hnone idom' h'.isSome_iff]

omit [DecidableEq V] in
theorem Settled.next (hranked : Ranked edge entry rank order) {j : Nat} {idom : V → Option V}
    (h : Candidates edge entry rank idom) (hs : Settled edge entry rank j order idom) :
    Settled edge entry rank (j + 1) [entry] idom where
  processed v hv _ := hs.processed v hv (.inr ((hranked.mem_iff v).mpr hv))
  within v z k hz hne hk := by
    have hv : v ∈ order := (hranked.mem_iff v).mpr (h.reaches v z hz)
    rcases hk with hk | ⟨-, hmem⟩
    · refine hs.within v z k hz hne ?_
      rcases Nat.lt_succ_iff_lt_or_eq.mp hk with hk | hk
      · exact .inl hk
      · exact .inr ⟨hk, hv⟩
    · exact absurd (List.mem_singleton.mp hmem) hne

omit [DecidableEq V] in
/-- After as many sweeps as the walks have steps back the candidates dominate. -/
theorem Settled.isIdom {j k : Nat} {idom : V → Option V} (h : Candidates edge entry rank idom)
    (hs : Settled edge entry rank j [entry] idom) (hk : k < j)
    (hwithin : ∀ z v, Reaches edge entry z → Reaches edge entry v →
      Within edge entry rank k z v → Dominates edge entry z v) : IsIdom edge entry idom where
  root := h.root
  isSome_iff v := ⟨h.reaches_of_isSome, fun hv => hs.processed v hv (.inl (by omega))⟩
  immediate v z hz hne := by
    have hv := h.reaches v z hz
    have hzr := h.reaches_of_isSome (h.processed v z hz)
    have hlt := h.lt v z hz hne
    refine ⟨?_, hwithin z v hzr hv (hs.within v z k hz hne (.inl hk)), h.dominated v z hz⟩
    rintro rfl
    omega

/-- `loop { changed = false; for v in nodes { step(v) }; if !changed { break } }` -/
def idomLoop (step : (V → Option V) × Bool → V → Option ((V → Option V) × Bool)) (nodes : List V) :
    Nat → (V → Option V) → Option (V → Option V)
  | 0, _ => none
  | fuel + 1, idom =>
    (nodes.foldlM step (idom, false)).bind fun state =>
      if state.2 then idomLoop step nodes fuel state.1 else some state.1

/-- Only the entry has a candidate at first: itself. -/
def startIdom (entry : V) : V → Option V := Function.update (fun _ => none) entry (some entry)

theorem startIdom_candidates (rank : V → Nat) : Candidates edge entry rank (startIdom entry) := by
  have hsome : ∀ v z, startIdom entry v = some z → v = entry ∧ z = entry := by
    intro v z hz
    by_cases hv : v = entry
    · subst hv
      rw [startIdom, Function.update_self] at hz
      exact ⟨rfl, (Option.some.inj hz).symm⟩
    · rw [startIdom, Function.update_of_ne hv] at hz
      cases hz
  have hroot : startIdom entry entry = some entry := Function.update_self _ _ _
  refine ⟨hroot, fun v z hz => ?_, fun v z hz => ?_, fun v z hz hne => ?_, fun v z hz d hd hdom => ?_⟩
  · rw [(hsome v z hz).1]
    exact ⟨_, .entry⟩
  · rw [(hsome v z hz).2, hroot]
    rfl
  · exact absurd (hsome v z hz).1 hne
  · rw [(hsome v z hz).1] at hdom hd
    exact absurd hdom.eq_entry hd

theorem startIdom_settled (rank : V → Nat) : Settled edge entry rank 0 [entry] (startIdom entry) where
  processed v _ hturn := by
    have hv : v = entry := by
      rcases hturn with hturn | hturn
      · omega
      · exact List.mem_singleton.mp hturn
    rw [hv, startIdom, Function.update_self]
    rfl
  within v z k hz hne _ := by
    rw [startIdom, Function.update_of_ne hne] at hz
    cases hz

/-- A round from one turn of the entry to the next. -/
theorem exists_round (hranked : Ranked edge entry rank order)
    (hstep : FindsNearest edge entry rank step) {j : Nat} {idom : V → Option V}
    (h : Candidates edge entry rank idom) (hs : Settled edge entry rank j [entry] idom) :
    ∃ idom' changed, order.tail.foldlM step (idom, false) = some (idom', changed) ∧
      Candidates edge entry rank idom' ∧ Settled edge entry rank (j + 1) [entry] idom' ∧
      (changed = false ↔ idom' = idom) := by
  have horder : order = [entry] ++ order.tail := (List.cons_head?_tail hranked.head).symm
  obtain ⟨idom', changed, hfold, h', hs', -, hflag⟩ :=
    exists_sweep hranked hstep horder (List.mem_singleton_self entry) h hs false
  exact ⟨idom', changed, hfold, h', hs'.next hranked h', hflag.trans (and_iff_right rfl)⟩

/-- Candidates that a round leaves alone are those of every later round. -/
theorem Settled.of_fixed (hranked : Ranked edge entry rank order)
    (hstep : FindsNearest edge entry rank step) {j : Nat} {idom : V → Option V}
    (h : Candidates edge entry rank idom) (hs : Settled edge entry rank j [entry] idom)
    (hfixed : order.tail.foldlM step (idom, false) = some (idom, false)) (m : Nat) :
    Settled edge entry rank (j + m) [entry] idom := by
  induction m with
  | zero => exact hs
  | succ m ih =>
    obtain ⟨idom', changed, hfold, -, hs', -⟩ := exists_round hranked hstep h ih
    rw [hfixed] at hfold
    cases hfold
    exact hs'

omit [DecidableEq V] in
theorem idomLoop_of_unchanged {idom idom' : V → Option V} {fuel : Nat} {nodes : List V}
    (hfold : nodes.foldlM step (idom, false) = some (idom', false)) :
    idomLoop step nodes (fuel + 1) idom = some idom' := by
  rw [idomLoop, hfold]
  rfl

omit [DecidableEq V] in
theorem idomLoop_of_changed {idom idom' : V → Option V} {fuel : Nat} {nodes : List V}
    (hfold : nodes.foldlM step (idom, false) = some (idom', true)) :
    idomLoop step nodes (fuel + 1) idom = idomLoop step nodes fuel idom' := by
  rw [idomLoop, hfold]
  rfl

/-- The loop ends at the latest when the tree is there: the round after it
    changes nothing. -/
theorem exists_idomLoop_from (hranked : Ranked edge entry rank order)
    (hstep : FindsNearest edge entry rank step) {k : Nat}
    (hwithin : ∀ z v, Reaches edge entry z → Reaches edge entry v →
      Within edge entry rank k z v → Dominates edge entry z v) (m : Nat) {j : Nat}
    (hj : k + 2 ≤ j + m) {idom : V → Option V} (h : Candidates edge entry rank idom)
    (hs : Settled edge entry rank j [entry] idom) :
    ∃ result, (∀ fuel > m, idomLoop step order.tail fuel idom = some result) ∧
      IsIdom edge entry result := by
  induction m generalizing j idom with
  | zero =>
    obtain ⟨idom', changed, hfold, h', hs', hflag⟩ := exists_round hranked hstep h hs
    have htree := hs.isIdom h (by omega) hwithin
    have htree' := hs'.isIdom h' (by omega : k < j + 1) hwithin
    rw [hflag.mpr (htree'.unique htree)] at hfold
    refine ⟨idom', fun fuel hfuel => ?_, htree'⟩
    obtain ⟨fuel, rfl⟩ : ∃ n, fuel = n + 1 := ⟨fuel - 1, by omega⟩
    exact idomLoop_of_unchanged hfold
  | succ m ih =>
    obtain ⟨idom', changed, hfold, h', hs', hflag⟩ := exists_round hranked hstep h hs
    cases changed with
    | false =>
      rw [hflag.mp rfl] at hfold
      have hlater := hs.of_fixed hranked hstep h hfold (k + 1)
      refine ⟨idom, fun fuel hfuel => ?_, hlater.isIdom h (by omega) hwithin⟩
      obtain ⟨fuel, rfl⟩ : ∃ n, fuel = n + 1 := ⟨fuel - 1, by omega⟩
      exact idomLoop_of_unchanged hfold
    | true =>
      obtain ⟨result, hrun, htree⟩ := ih (by omega) h' hs'
      refine ⟨result, fun fuel hfuel => ?_, htree⟩
      obtain ⟨fuel, rfl⟩ : ∃ n, fuel = n + 1 := ⟨fuel - 1, by omega⟩
      rw [idomLoop_of_changed hfold]
      exact hrun fuel (by omega)

/-- The loop ends, with the immediate dominators, and the graph alone says after
    how many rounds at most. -/
theorem exists_idomLoop (hranked : Ranked edge entry rank order) :
    ∃ rounds, ∀ step, FindsNearest edge entry rank step →
      ∃ idom, (∀ fuel > rounds,
          idomLoop step order.tail fuel (startIdom entry) = some idom) ∧
        IsIdom edge entry idom := by
  obtain ⟨k, hk⟩ := exists_within edge entry rank
    (order.flatMap fun z => order.map fun v => (z, v))
  have hwithin : ∀ z v, Reaches edge entry z → Reaches edge entry v →
      Within edge entry rank k z v → Dominates edge entry z v := fun z v hz hv =>
    hk (z, v) (List.mem_flatMap.mpr ⟨z, (hranked.mem_iff z).mpr hz,
      List.mem_map.mpr ⟨v, (hranked.mem_iff v).mpr hv, rfl⟩⟩)
  exact ⟨k + 2, fun step hstep => exists_idomLoop_from hranked hstep hwithin (k + 2) (by omega)
    (startIdom_candidates rank) (startIdom_settled rank)⟩

end Sweep

/-! ## Queries -/

section Queries

variable {edge : V → V → Prop} {entry : V} {idom : V → Option V}

/-- The ancestors of a node are what dominates it. -/
theorem IsIdom.ancestor_iff (h : IsIdom edge entry idom) {z v : V} (hv : Reaches edge entry v) :
    Ancestor idom z v ↔ Dominates edge entry z v := by
  constructor
  · intro hz
    induction hz using Relation.ReflTransGen.head_induction_on with
    | refl => exact Dominates.refl z
    | @head v y hstep hrest ih =>
      have hyv : Dominates edge entry y v := by
        by_cases hne : v = entry
        · subst hne
          rw [h.root] at hstep
          rw [Option.some.inj hstep]
          exact Dominates.refl _
        · exact (h.immediate v y hstep hne).2.1
      exact (ih (hyv.reaches hv)).trans hyv
  · intro hdom
    obtain ⟨visited, hwalk⟩ := hv
    obtain ⟨n, hn⟩ : ∃ n, visited.length < n := ⟨_, Nat.lt_succ_self _⟩
    -- a walk to the immediate dominator is shorter
    induction n generalizing v visited with
    | zero => exact absurd hn (Nat.not_lt_zero _)
    | succ n ih =>
      by_cases hne : z = v
      · rw [hne]
        exact .refl
      · obtain ⟨y, hy⟩ := Option.isSome_iff_exists.mp ((h.isSome_iff v).mpr ⟨_, hwalk⟩)
        have hentry : v ≠ entry := by
          rintro rfl
          exact hne hdom.eq_entry
        obtain ⟨hyv, hydom, hall⟩ := h.immediate v y hy hentry
        obtain ⟨before, hbefore, -, -, hlt⟩ := hwalk.visit (hydom visited hwalk)
        have hshort := hlt hyv
        exact .head hy (ih (hall z hne hdom) before hbefore (by omega))

/-- The one candidate that dominates immediately. -/
theorem IsIdom.eq_some_iff (h : IsIdom edge entry idom) {v z : V} (hne : v ≠ entry) :
    idom v = some z ↔ Reaches edge entry v ∧ ImmediatelyDominates edge entry z v := by
  constructor
  · intro hz
    exact ⟨(h.isSome_iff v).mp (by rw [hz]; rfl), h.immediate v z hz hne⟩
  · rintro ⟨hv, hzv, hdom, hall⟩
    obtain ⟨y, hy⟩ := Option.isSome_iff_exists.mp ((h.isSome_iff v).mpr hv)
    obtain ⟨hyv, hydom, hyall⟩ := h.immediate v y hy hne
    rw [hy, (hall y hyv hydom).antisymm (hyall z hzv hdom) (hdom.reaches hv)]

/-- Candidates of nodes for themselves make no ancestors. -/
theorem Ancestor.of_loops {idom' : V → Option V}
    (h : ∀ x y, x ≠ y → idom x = some y → idom' x = some y) {z v : V} (hz : Ancestor idom z v) :
    Ancestor idom' z v := by
  induction hz with
  | refl => exact .refl
  | @tail x y _ hstep ih =>
    by_cases hxy : x = y
    · exact hxy ▸ ih
    · exact ih.tail (h x y hxy hstep)

end Queries

end IdomTree

end Crabbit.Lib
