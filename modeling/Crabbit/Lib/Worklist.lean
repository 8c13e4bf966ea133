/-
  Crabbit.Lib.Worklist

  Flooding a graph from a stack: pop a node, skip it when it was seen, look at
  it, push its neighbours.  Looking at a node may give the search up.
-/

import Mathlib.Algebra.BigOperators.Group.List.Basic
import Mathlib.Algebra.GroupWithZero.Nat
import Mathlib.Data.List.Nodup

namespace Crabbit.Lib

/-- How a search ends. -/
inductive Flood (α : Type*) where
  | outOfFuel
  | aborted
  | finished (seen : List α)

section Worklist

variable {α : Type*} [DecidableEq α]

/-- `while let Some(x) = stack.pop()`; the head of the list is the top of the
    stack. -/
def flood (visit : α → Option (List α)) : Nat → List α → List α → Flood α
  | 0, _, _ => .outOfFuel
  | _ + 1, [], seen => .finished seen
  | fuel + 1, x :: stack, seen =>
    if x ∈ seen then flood visit fuel stack seen
    else
      match visit x with
      | none => .aborted
      | some next => flood visit fuel (next.reverse ++ stack) (x :: seen)

variable {visit : α → Option (List α)}

/-- A finished search has seen what it started from, and everything next to
    what it has seen. -/
theorem flood_closed {fuel : Nat} {stack seen result : List α}
    (h : flood visit fuel stack seen = .finished result)
    (hseen : ∀ x ∈ seen, ∃ next, visit x = some next ∧ ∀ y ∈ next, y ∈ seen ∨ y ∈ stack) :
    (∀ x ∈ seen, x ∈ result) ∧ (∀ x ∈ stack, x ∈ result) ∧
      ∀ x ∈ result, ∃ next, visit x = some next ∧ ∀ y ∈ next, y ∈ result := by
  induction fuel generalizing stack seen with
  | zero => cases h
  | succ fuel ih =>
    cases stack with
    | nil =>
      rw [flood] at h
      cases h
      refine ⟨fun _ hx => hx, fun _ hx => absurd hx List.not_mem_nil, fun x hx => ?_⟩
      obtain ⟨next, hvisit, hnext⟩ := hseen x hx
      exact ⟨next, hvisit, fun y hy => (hnext y hy).resolve_right List.not_mem_nil⟩
    | cons x stack =>
      rw [flood] at h
      by_cases hx : x ∈ seen
      · rw [if_pos hx] at h
        obtain ⟨h1, h2, h3⟩ := ih h fun y hy => by
          obtain ⟨next, hvisit, hnext⟩ := hseen y hy
          refine ⟨next, hvisit, fun z hz => ?_⟩
          rcases hnext z hz with hz | hz
          · exact Or.inl hz
          · rcases List.mem_cons.mp hz with rfl | hz
            · exact Or.inl hx
            · exact Or.inr hz
        refine ⟨h1, fun y hy => ?_, h3⟩
        rcases List.mem_cons.mp hy with rfl | hy
        · exact h1 _ hx
        · exact h2 y hy
      · rw [if_neg hx] at h
        cases hvisit : visit x with
        | none =>
          rw [hvisit] at h
          cases h
        | some next =>
          rw [hvisit] at h
          obtain ⟨h1, h2, h3⟩ := ih h fun y hy => by
            rcases List.mem_cons.mp hy with rfl | hy
            · exact ⟨next, hvisit, fun z hz =>
                Or.inr (List.mem_append_left _ (List.mem_reverse.mpr hz))⟩
            · obtain ⟨next', hvisit', hnext'⟩ := hseen y hy
              refine ⟨next', hvisit', fun z hz => ?_⟩
              rcases hnext' z hz with hz | hz
              · exact Or.inl (List.mem_cons_of_mem _ hz)
              · rcases List.mem_cons.mp hz with rfl | hz
                · exact Or.inl List.mem_cons_self
                · exact Or.inr (List.mem_append_right _ hz)
          refine ⟨fun y hy => h1 y (List.mem_cons_of_mem _ hy), fun y hy => ?_, h3⟩
          rcases List.mem_cons.mp hy with rfl | hy
          · exact h1 _ List.mem_cons_self
          · exact h2 y (List.mem_append_right _ hy)

/-- A search from one node that finishes has found a closed set around it. -/
theorem flood_singleton {fuel : Nat} {x : α} {result : List α}
    (h : flood visit fuel [x] [] = .finished result) :
    x ∈ result ∧ ∀ y ∈ result, ∃ next, visit y = some next ∧ ∀ z ∈ next, z ∈ result := by
  obtain ⟨-, h2, h3⟩ := flood_closed h fun _ hx => absurd hx List.not_mem_nil
  exact ⟨h2 x List.mem_cons_self, h3⟩

/-- What holds of the nodes a search starts from, and of the neighbours of
    nodes it holds of, holds of what it has seen. -/
theorem flood_invariant {p : α → Prop} (hp : ∀ x next, p x → visit x = some next → ∀ y ∈ next, p y)
    {fuel : Nat} {stack seen result : List α} (h : flood visit fuel stack seen = .finished result)
    (hstack : ∀ x ∈ stack, p x) (hseen : ∀ x ∈ seen, p x) : ∀ x ∈ result, p x := by
  induction fuel generalizing stack seen with
  | zero => cases h
  | succ fuel ih =>
    cases stack with
    | nil =>
      rw [flood] at h
      cases h
      exact hseen
    | cons x stack =>
      obtain ⟨hx, hstack⟩ := List.forall_mem_cons.mp hstack
      rw [flood] at h
      by_cases hxs : x ∈ seen
      · rw [if_pos hxs] at h
        exact ih h hstack hseen
      · rw [if_neg hxs] at h
        cases hvisit : visit x with
        | none =>
          rw [hvisit] at h
          cases h
        | some next =>
          rw [hvisit] at h
          apply ih h
          · intro y hy
            rcases List.mem_append.mp hy with hy | hy
            · exact hp x next hx hvisit y (List.mem_reverse.mp hy)
            · exact hstack y hy
          · exact List.forall_mem_cons.mpr ⟨hx, hseen⟩

/-- A search that never gives up is not given up. -/
theorem flood_ne_aborted (hvisit : ∀ x, visit x ≠ none) {fuel : Nat} {stack seen : List α} :
    flood visit fuel stack seen ≠ .aborted := by
  induction fuel generalizing stack seen with
  | zero => exact fun h => by cases h
  | succ fuel ih =>
    cases stack with
    | nil => exact fun h => by cases h
    | cons x stack =>
      rw [flood]
      by_cases hxs : x ∈ seen
      · rw [if_pos hxs]
        exact ih
      · rw [if_neg hxs]
        cases hx : visit x with
        | none => exact absurd hx (hvisit x)
        | some next => exact ih

/-- Only the neighbours of nodes that were not seen before matter. -/
theorem flood_congr {visit' : α → Option (List α)} {fuel : Nat} {stack seen : List α}
    (h : ∀ x, x ∉ seen → visit x = visit' x) :
    flood visit fuel stack seen = flood visit' fuel stack seen := by
  induction fuel generalizing stack seen with
  | zero => rfl
  | succ fuel ih =>
    cases stack with
    | nil => rfl
    | cons x stack =>
      rw [flood, flood]
      by_cases hx : x ∈ seen
      · rw [if_pos hx, if_pos hx, ih h]
      · -- From here on `x` is seen, and the hypothesis still covers the rest.
        rw [if_neg hx, if_neg hx, ← h x hx]
        cases visit x with
        | none => rfl
        | some next => exact ih fun y hy => h y fun hmem => hy (List.mem_cons_of_mem _ hmem)

/-- Nothing is seen twice. -/
theorem flood_nodup {fuel : Nat} {stack seen result : List α}
    (h : flood visit fuel stack seen = .finished result) (hseen : seen.Nodup) : result.Nodup := by
  induction fuel generalizing stack seen with
  | zero => cases h
  | succ fuel ih =>
    cases stack with
    | nil =>
      rw [flood] at h
      cases h
      exact hseen
    | cons x stack =>
      rw [flood] at h
      by_cases hx : x ∈ seen
      · rw [if_pos hx] at h
        exact ih h hseen
      · rw [if_neg hx] at h
        cases hvisit : visit x with
        | none =>
          rw [hvisit] at h
          cases h
        | some next =>
          rw [hvisit] at h
          exact ih h (List.nodup_cons.mpr ⟨hx, hseen⟩)

/-- The pushes still to come: the neighbours of the nodes not yet seen. -/
def pushes (visit : α → Option (List α)) (univ seen : List α) : Nat :=
  ((univ.filter (· ∉ seen)).map fun x => ((visit x).getD []).length).sum

theorem pushes_cons {univ seen : List α} (hnodup : univ.Nodup) {x : α} (hx : x ∈ univ)
    (hseen : x ∉ seen) :
    pushes visit univ seen = ((visit x).getD []).length + pushes visit univ (x :: seen) := by
  induction univ with
  | nil => exact absurd hx List.not_mem_nil
  | cons y univ ih =>
    obtain ⟨hy, hnodup⟩ := List.nodup_cons.mp hnodup
    unfold pushes at *
    by_cases hxy : x = y
    · subst hxy
      -- No other occurrence of `x` is filtered out.
      have hrest : univ.filter (· ∉ x :: seen) = univ.filter (· ∉ seen) := by
        apply List.filter_congr
        intro z hz
        have hne : z ≠ x := fun h => hy (h ▸ hz)
        simp [hne]
      rw [List.filter_cons_of_pos (by simpa using hseen), List.filter_cons_of_neg (by simp), hrest,
        List.map_cons, List.sum_cons]
    · have hx' : x ∈ univ := by
        rcases List.mem_cons.mp hx with h | h
        · exact absurd h hxy
        · exact h
      have ih := ih hnodup hx'
      by_cases hys : y ∈ seen
      · rw [List.filter_cons_of_neg (by simpa using hys), List.filter_cons_of_neg (by simp [hys]),
          ih]
      · have hyx : ¬ y = x := fun h => hxy h.symm
        rw [List.filter_cons_of_pos (by simpa using hys),
          List.filter_cons_of_pos (by simp [hys, hyx]), List.map_cons, List.map_cons, List.sum_cons,
          List.sum_cons, ih]
        omega

/-- Fuel for every push is enough. -/
theorem flood_ne_outOfFuel {univ : List α} (hnodup : univ.Nodup)
    (hclosed : ∀ x ∈ univ, ∀ next, visit x = some next → ∀ y ∈ next, y ∈ univ) {fuel : Nat}
    {stack seen : List α} (hstack : ∀ x ∈ stack, x ∈ univ)
    (hfuel : stack.length + pushes visit univ seen < fuel) :
    flood visit fuel stack seen ≠ .outOfFuel := by
  induction fuel generalizing stack seen with
  | zero => omega
  | succ fuel ih =>
    cases stack with
    | nil =>
      rw [flood]
      exact fun h => by cases h
    | cons x stack =>
      have hx := hstack x List.mem_cons_self
      have hstack' : ∀ y ∈ stack, y ∈ univ := fun y hy => hstack y (List.mem_cons_of_mem _ hy)
      rw [List.length_cons] at hfuel
      rw [flood]
      by_cases hseen : x ∈ seen
      · rw [if_pos hseen]
        exact ih hstack' (by omega)
      · rw [if_neg hseen]
        rw [pushes_cons hnodup hx hseen] at hfuel
        cases hvisit : visit x with
        | none => exact fun h => by cases h
        | some next =>
          rw [hvisit, Option.getD_some] at hfuel
          apply ih
          · intro y hy
            rcases List.mem_append.mp hy with hy | hy
            · exact hclosed x hx next hvisit y (List.mem_reverse.mp hy)
            · exact hstack' y hy
          · rw [List.length_append, List.length_reverse]
            omega

end Worklist

end Crabbit.Lib
