/-
  Crabbit.Llvm.RegionCfg

  The control-flow graph of a region by the indices of its blocks, and the same
  graph with its blocks in another order.
-/

import Mathlib.Data.List.FinRange
import Mathlib.Data.List.GetD
import Mathlib.Logic.Equiv.Defs

namespace Crabbit.Llvm

/-- `RegionCfg`: the successors of each block, each successor a block. -/
structure RegionCfg where
  succs : List (List Nat)
  closed : ∀ targets ∈ succs, ∀ s ∈ targets, s < succs.length

namespace RegionCfg

/-- The number of blocks. -/
def len (cfg : RegionCfg) : Nat := cfg.succs.length

def succsOf (cfg : RegionCfg) (b : Nat) : List Nat := cfg.succs.getD b []

theorem succsOf_lt (cfg : RegionCfg) {b s : Nat} (h : s ∈ cfg.succsOf b) : s < cfg.len := by
  rcases Nat.lt_or_ge b cfg.succs.length with hlt | hge
  · rw [succsOf, List.getD_eq_getElem _ _ hlt] at h
    exact cfg.closed _ (List.getElem_mem hlt) s h
  · rw [succsOf, List.getD_eq_default _ _ hge] at h
    exact absurd h List.not_mem_nil

/-! ## Another order of the blocks -/

/-- An assignment to the blocks, for the blocks in another order. -/
def relabel {α : Type} {n : Nat} (σ : Equiv.Perm (Fin n)) (f : Nat → α) (b : Nat) : α :=
  if h : b < n then f (σ.symm ⟨b, h⟩) else f b

/-- The index of a block in another order. -/
def reindex {n : Nat} (σ : Equiv.Perm (Fin n)) (b : Nat) : Nat :=
  if h : b < n then σ ⟨b, h⟩ else b

theorem reindex_lt {n : Nat} (σ : Equiv.Perm (Fin n)) {b : Nat} (h : b < n) :
    reindex σ b < n := by
  rw [reindex, dif_pos h]
  exact (σ ⟨b, h⟩).isLt

theorem reindex_symm {n : Nat} (σ : Equiv.Perm (Fin n)) {b : Nat} (h : b < n) :
    reindex σ (reindex σ.symm b) = b := by
  simp only [reindex, dif_pos h, Fin.is_lt, dite_true, Fin.eta, Equiv.apply_symm_apply]

theorem relabel_reindex {α : Type} {n : Nat} (σ : Equiv.Perm (Fin n)) (f : Nat → α) {b : Nat}
    (h : b < n) : relabel σ f (reindex σ b) = f b := by
  rw [relabel, dif_pos (reindex_lt σ h)]
  congr 1
  simp only [reindex, dif_pos h, Fin.eta, Equiv.symm_apply_apply]

/-- The graph with its blocks in another order. -/
def reorder (cfg : RegionCfg) (σ : Equiv.Perm (Fin cfg.len)) : RegionCfg where
  succs := List.ofFn fun b : Fin cfg.len => (cfg.succsOf (σ.symm b)).map (reindex σ)
  closed := by
    intro targets htargets s hs
    obtain ⟨b, rfl⟩ := List.mem_ofFn.mp htargets
    obtain ⟨t, ht, rfl⟩ := List.mem_map.mp hs
    rw [List.length_ofFn]
    exact reindex_lt σ (cfg.succsOf_lt ht)

@[simp] theorem len_reorder (cfg : RegionCfg) (σ : Equiv.Perm (Fin cfg.len)) :
    (cfg.reorder σ).len = cfg.len := List.length_ofFn

theorem succsOf_reorder (cfg : RegionCfg) (σ : Equiv.Perm (Fin cfg.len)) {b : Nat}
    (h : b < cfg.len) :
    (cfg.reorder σ).succsOf (reindex σ b) = (cfg.succsOf b).map (reindex σ) := by
  have hlt := reindex_lt σ h
  rw [succsOf, List.getD_eq_getElem?_getD, reorder, List.getElem?_ofFn, dif_pos hlt,
    Option.getD_some]
  simp only [reindex, dif_pos h, Fin.eta, Equiv.symm_apply_apply]

end RegionCfg

end Crabbit.Llvm
