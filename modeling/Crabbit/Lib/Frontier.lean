/-
  Crabbit.Lib.Frontier

  Dominance frontiers, by paths and by immediate dominators.  A node with a
  single predecessor is in no frontier; only the entry is joined to itself by
  one edge.
-/

import Crabbit.Lib.IdomTree
import Mathlib.Order.Bounds.Defs

namespace Crabbit.Lib

section Frontiers

variable {V : Type*} {edge : V → V → Prop} {entry : V} {idom : V → Option V}

/-- `r` dominates a predecessor of `w` that can be reached, but not strictly `w`
    itself. -/
def InFrontier (edge : V → V → Prop) (entry r w : V) : Prop :=
  (∃ u, Reaches edge entry u ∧ edge u w ∧ Dominates edge entry r u) ∧
    ¬ (r ≠ w ∧ Dominates edge entry r w)

/-- What strictly dominates a node dominates its immediate dominator. -/
theorem IsIdom.dominates_iff (h : IsIdom edge entry idom) {r w z : V} (hne : w ≠ entry)
    (hz : idom w = some z) : Dominates edge entry r z ↔ r ≠ w ∧ Dominates edge entry r w := by
  have hw := (h.isSome_iff w).mp (by rw [hz]; rfl)
  obtain ⟨hzw, hdom, hall⟩ := h.immediate w z hz hne
  constructor
  · intro hrz
    refine ⟨?_, hrz.trans hdom⟩
    rintro rfl
    exact hzw (hdom.antisymm hrz hw)
  · rintro ⟨hrw, hr⟩
    exact hall r hrw hr

theorem IsIdom.inFrontier_iff (h : IsIdom edge entry idom) {r w z : V} (hne : w ≠ entry)
    (hz : idom w = some z) : InFrontier edge entry r w ↔
      ∃ u, Reaches edge entry u ∧ edge u w ∧ Dominates edge entry r u ∧
        ¬ Dominates edge entry r z := by
  rw [InFrontier, ← h.dominates_iff hne hz]
  constructor
  · rintro ⟨⟨u, hu, he, hr⟩, hnot⟩
    exact ⟨u, hu, he, hr, hnot⟩
  · rintro ⟨u, hu, he, hr, hnot⟩
    exact ⟨⟨u, hu, he, hr⟩, hnot⟩

/-- The entry is in the frontier of whatever dominates a predecessor of it. -/
theorem inFrontier_entry_iff {r : V} : InFrontier edge entry r entry ↔
    ∃ u, Reaches edge entry u ∧ edge u entry ∧ Dominates edge entry r u :=
  and_iff_left fun h => h.1 h.2.eq_entry

/-- A node that can be reached is so from elsewhere. -/
theorem Reaches.exists_pred {w : V} (h : Reaches edge entry w) (hne : w ≠ entry) :
    ∃ u, Reaches edge entry u ∧ edge u w ∧ u ≠ w := by
  obtain ⟨visited, hwalk⟩ := h
  induction hwalk with
  | entry => exact absurd rfl hne
  | @step u w _ hwalk he ih =>
    by_cases huw : u = w
    · subst huw
      exact ih hne
    · exact ⟨u, ⟨_, hwalk⟩, he, huw⟩

/-- A node with one predecessor is in no frontier. -/
theorem not_inFrontier_of_pred {r w p : V} (hne : w ≠ entry)
    (hpred : ∀ u, Reaches edge entry u → edge u w → u = p) :
    ¬ InFrontier edge entry r w := by
  rintro ⟨⟨u, hu, he, hr⟩, hnot⟩
  obtain rfl := hpred u hu he
  have hbelow : ∀ d, Dominates edge entry d u → Dominates edge entry d w := by
    intro d hd visited hwalk
    cases hwalk with
    | entry => exact absurd rfl hne
    | step hwalk hlast =>
      have hvisited := hpred _ ⟨_, hwalk⟩ hlast ▸ hwalk
      exact List.mem_cons_of_mem _ (hd _ hvisited)
  refine hnot ⟨?_, hbelow r hr⟩
  rintro rfl
  -- the predecessor is another node, and dominates
  obtain ⟨u', hu', he', hne'⟩ := (hu.step he).exists_pred hne
  obtain rfl := hpred u' hu' he'
  exact hne' ((hbelow u' (Dominates.refl u')).antisymm hr (hu.step he))

/-- What is reached by frontiers of frontiers, from a set of nodes. -/
def iterated (frontier : V → List V) (start : Set V) : Set V :=
  {w | ∃ b ∈ start, Relation.TransGen (fun x y => y ∈ frontier x) b w}

/-- With exact frontiers that is the least set that contains the frontiers of its
    own nodes and of the first ones. -/
theorem iterated_isLeast {frontier : V → List V}
    (h : ∀ b w, w ∈ frontier b ↔ InFrontier edge entry b w) (start : Set V) :
    IsLeast {nodes : Set V | ∀ b ∈ start ∪ nodes, ∀ w, InFrontier edge entry b w → w ∈ nodes}
      (iterated frontier start) := by
  constructor
  · rintro b (hb | ⟨a, ha, hab⟩) w hw
    · exact ⟨b, hb, .single ((h b w).mpr hw)⟩
    · exact ⟨a, ha, hab.tail ((h b w).mpr hw)⟩
  · rintro nodes hclosed w ⟨a, ha, haw⟩
    induction haw with
    | single hab => exact hclosed a (.inl ha) _ ((h _ _).mp hab)
    | tail _ hbc ih => exact hclosed _ (.inr ih) _ ((h _ _).mp hbc)

end Frontiers

end Crabbit.Lib
