/-
  Crabbit.Lib.Dominance

  Dominance in a graph with an entry: a node dominates another when every walk
  from the entry to the other visits it.
-/

import Mathlib.Tactic.TypeStar
import Mathlib.Order.Basic

namespace Crabbit.Lib

section Dominance

variable {V : Type*} (edge : V → V → Prop) (entry : V)

/-- A walk from the entry to a node, with the nodes it visits, last one
    first. -/
inductive Walk : V → List V → Prop where
  | entry : Walk entry [entry]
  | step {u v : V} {visited : List V} (h : Walk u visited) (he : edge u v) : Walk v (v :: visited)

/-- Some walk leads there. -/
def Reaches (v : V) : Prop := ∃ visited, Walk edge entry v visited

/-- Every walk to `b` visits `a`. -/
def Dominates (a b : V) : Prop := ∀ visited, Walk edge entry b visited → a ∈ visited

variable {edge entry}

theorem Reaches.step {u v : V} (h : Reaches edge entry u) (he : edge u v) : Reaches edge entry v := by
  obtain ⟨visited, h⟩ := h
  exact ⟨_, h.step he⟩

theorem Walk.mem {v : V} {visited : List V} (h : Walk edge entry v visited) : v ∈ visited := by
  cases h with
  | entry => exact List.mem_cons_self
  | step => exact List.mem_cons_self

/-- A walk to a node it visits on the way, shorter unless that is its end. -/
theorem Walk.visit {u v : V} {visited : List V} (h : Walk edge entry v visited) (hu : u ∈ visited) :
    ∃ before, Walk edge entry u before ∧ (∀ x ∈ before, x ∈ visited) ∧
      before.length ≤ visited.length ∧ (u ≠ v → before.length < visited.length) := by
  induction h with
  | entry =>
    obtain rfl := List.mem_singleton.mp hu
    exact ⟨_, .entry, fun _ hx => hx, Nat.le_refl _, fun hne => absurd rfl hne⟩
  | @step w v visited h he ih =>
    rcases List.mem_cons.mp hu with rfl | hu
    · exact ⟨_, h.step he, fun _ hx => hx, Nat.le_refl _, fun hne => absurd rfl hne⟩
    · obtain ⟨before, hbefore, hsub, hle, -⟩ := ih hu
      have hlt : before.length < (v :: visited).length := Nat.lt_succ_of_le hle
      exact ⟨before, hbefore, fun x hx => List.mem_cons_of_mem _ (hsub x hx), Nat.le_of_lt hlt,
        fun _ => hlt⟩

theorem Dominates.refl (a : V) : Dominates edge entry a a := fun _ h => h.mem

theorem Dominates.trans {a b c : V} (hab : Dominates edge entry a b)
    (hbc : Dominates edge entry b c) : Dominates edge entry a c := by
  intro visited h
  obtain ⟨before, hbefore, hsub, -, -⟩ := h.visit (hbc visited h)
  exact hsub a (hab before hbefore)

/-- Two nodes that dominate each other are one: otherwise a walk to either
    contains a shorter one to the other, without end. -/
theorem Dominates.antisymm {a b : V} (hab : Dominates edge entry a b)
    (hba : Dominates edge entry b a) (hb : Reaches edge entry b) : a = b := by
  by_contra hne
  obtain ⟨visited, h⟩ := hb
  have hnone : ∀ n visited, visited.length < n → ¬ Walk edge entry b visited := by
    intro n
    induction n with
    | zero => exact fun _ hlt => absurd hlt (Nat.not_lt_zero _)
    | succ n ih =>
      intro visited hlt h
      obtain ⟨toA, hwalkA, -, -, hltA⟩ := h.visit (hab visited h)
      obtain ⟨toB, hwalkB, -, hleB, -⟩ := hwalkA.visit (hba toA hwalkA)
      have := hltA hne
      exact ih toB (by omega) hwalkB
  exact hnone _ visited (Nat.lt_succ_self _) h

/-- What dominates a node from elsewhere dominates its predecessors. -/
theorem Dominates.pred {a b c : V} (hab : Dominates edge entry a b) (hne : a ≠ b)
    (he : edge c b) : Dominates edge entry a c := by
  intro visited h
  rcases List.mem_cons.mp (hab _ (h.step he)) with heq | hmem
  · exact absurd heq hne
  · exact hmem

/-- What dominates a node that can be reached can be reached. -/
theorem Dominates.reaches {a b : V} (hab : Dominates edge entry a b) (hb : Reaches edge entry b) :
    Reaches edge entry a := by
  obtain ⟨visited, h⟩ := hb
  obtain ⟨before, hbefore, -⟩ := h.visit (hab visited h)
  exact ⟨before, hbefore⟩

/-- Only the entry dominates the entry. -/
theorem Dominates.eq_entry {a : V} (h : Dominates edge entry a entry) : a = entry :=
  List.mem_singleton.mp (h _ .entry)

theorem entry_dominates (v : V) : Dominates edge entry entry v := by
  intro visited h
  induction h with
  | entry => exact List.mem_cons_self
  | step _ _ ih => exact List.mem_cons_of_mem _ ih

/-- A node with one predecessor is dominated by it. -/
theorem dominates_of_pred {a b : V} (hne : b ≠ entry) (h : ∀ u, edge u b → u = a) :
    Dominates edge entry a b := by
  intro visited hwalk
  cases hwalk with
  | entry => exact absurd rfl hne
  | step hwalk he => exact List.mem_cons_of_mem _ (h _ he ▸ hwalk.mem)

/-! ## Shortcuts

Where every edge of a second graph is one of the first, or leads past a
skipped node, walks and dominance carry over. -/

variable {edge' : V → V → Prop} {skip : V → Prop}

theorem Walk.lift
    (hlift : ∀ u v, edge' u v → edge u v ∨ ∃ f, skip f ∧ edge u f ∧ edge f v) {v : V}
    {visited' : List V} (h : Walk edge' entry v visited') :
    ∃ visited, Walk edge entry v visited ∧ ∀ x ∈ visited, x ∈ visited' ∨ skip x := by
  induction h with
  | entry => exact ⟨_, .entry, fun x hx => Or.inl hx⟩
  | @step u v visited' _ he ih =>
    obtain ⟨visited, hwalk, hsub⟩ := ih
    have hsub' : ∀ x ∈ visited, x ∈ v :: visited' ∨ skip x := fun x hx =>
      (hsub x hx).imp_left fun h => List.mem_cons_of_mem _ h
    rcases hlift u v he with he | ⟨f, hf, huf, hfv⟩
    · refine ⟨_, hwalk.step he, fun x hx => ?_⟩
      rcases List.mem_cons.mp hx with rfl | hx
      · exact Or.inl List.mem_cons_self
      · exact hsub' x hx
    · refine ⟨_, (hwalk.step huf).step hfv, fun x hx => ?_⟩
      rcases List.mem_cons.mp hx with rfl | hx
      · exact Or.inl List.mem_cons_self
      · rcases List.mem_cons.mp hx with rfl | hx
        · exact Or.inr hf
        · exact hsub' x hx

theorem Reaches.lift
    (hlift : ∀ u v, edge' u v → edge u v ∨ ∃ f, skip f ∧ edge u f ∧ edge f v) {v : V}
    (h : Reaches edge' entry v) : Reaches edge entry v := by
  obtain ⟨visited', h⟩ := h
  obtain ⟨visited, hwalk, -⟩ := h.lift hlift
  exact ⟨visited, hwalk⟩

/-- What is not skipped dominates what it did. -/
theorem Dominates.lift
    (hlift : ∀ u v, edge' u v → edge u v ∨ ∃ f, skip f ∧ edge u f ∧ edge f v) {a b : V}
    (h : Dominates edge entry a b) (ha : ¬ skip a) : Dominates edge' entry a b := by
  intro visited' hwalk'
  obtain ⟨visited, hwalk, hsub⟩ := hwalk'.lift hlift
  exact (hsub a (h visited hwalk)).resolve_right ha

/-! ## Renaming -/

section Renaming

variable {W : Type*} {edgeW : W → W → Prop}

/-- A walk with its nodes renamed. -/
theorem Walk.map {f : V → W} (hf : ∀ u v, Reaches edge entry u → edge u v → edgeW (f u) (f v))
    {v : V} {visited : List V} (h : Walk edge entry v visited) :
    Walk edgeW (f entry) (f v) (visited.map f) := by
  induction h with
  | entry => exact .entry
  | step h he ih => exact ih.step (hf _ _ ⟨_, h⟩ he)

theorem Reaches.map {f : V → W} (hf : ∀ u v, Reaches edge entry u → edge u v → edgeW (f u) (f v))
    {v : V} (h : Reaches edge entry v) : Reaches edgeW (f entry) (f v) := by
  obtain ⟨visited, h⟩ := h
  exact ⟨_, h.map hf⟩

/-- Dominance with the nodes renamed, where the names can be read back. -/
theorem Dominates.map {f : V → W} {g : W → V}
    (hg : ∀ u v, Reaches edgeW (f entry) u → edgeW u v → edge (g u) (g v))
    (hfg : ∀ w, Reaches edgeW (f entry) w → f (g w) = w) {a b : V}
    (h : Dominates edge (g (f entry)) a b) (hb : g (f b) = b) :
    Dominates edgeW (f entry) (f a) (f b) := by
  intro visited hwalk
  have hback := hwalk.map hg
  rw [hb] at hback
  obtain ⟨w, hw, rfl⟩ := List.mem_map.mp (h _ hback)
  obtain ⟨before, hbefore, -⟩ := hwalk.visit hw
  rw [hfg w ⟨before, hbefore⟩]
  exact hw

end Renaming

end Dominance

end Crabbit.Lib
