/-
  Crabbit.Lib.ParallelCopy

  Parallel copies between registers, one after another.

  A copy has a destination and a source, or no source where the destination is
  only cleared.  The copies happen at once: `Assigns` compares the registers
  before all of them with those after.  They are emitted one at a time.  A copy
  whose destination no pending copy reads can go first; where there is none, the
  value of a destination is saved in a scratch register and its readers are
  redirected there.
-/

import Mathlib.Data.List.Basic
import Mathlib.Logic.Function.Basic

namespace Crabbit.Lib

/-- A destination and its source. -/
abbrev Copy (R : Type) := R × Option R

variable {R V : Type} [DecidableEq R]

/-! ## Pending copies -/

/-- No pending copy reads the destination of this one. -/
def unread (pending : List (Copy R)) (copy : Copy R) : Bool :=
  !pending.any fun other => decide (other.2 = some copy.1)

/-- The readers of `d` read `scratch` instead. -/
def redirect (d scratch : R) (pending : List (Copy R)) : List (Copy R) :=
  pending.map fun copy => (copy.1, if copy.2 = some d then some scratch else copy.2)

/-- All registers that are read. -/
def sources (pending : List (Copy R)) : List R := pending.filterMap Prod.snd

omit [DecidableEq R] in
theorem mem_sources {pending : List (Copy R)} {r : R} :
    r ∈ sources pending ↔ ∃ d, (d, some r) ∈ pending := by
  rw [sources, List.mem_filterMap]
  constructor
  · rintro ⟨⟨d, src⟩, hmem, rfl⟩
    exact ⟨d, hmem⟩
  · rintro ⟨d, hmem⟩
    exact ⟨_, hmem, rfl⟩

theorem unread_iff {pending : List (Copy R)} {copy : Copy R} :
    unread pending copy = true ↔ copy.1 ∉ sources pending := by
  rw [unread, Bool.not_eq_true', List.any_eq_false, mem_sources]
  constructor
  · rintro h ⟨d, hmem⟩
    exact h _ hmem (decide_eq_true rfl)
  · rintro h ⟨d, src⟩ hmem heq
    have hsrc : src = some copy.1 := of_decide_eq_true heq
    exact h ⟨d, hsrc ▸ hmem⟩

theorem redirect_fst (d scratch : R) (pending : List (Copy R)) :
    (redirect d scratch pending).map Prod.fst = pending.map Prod.fst := by
  rw [redirect, List.map_map]
  rfl

theorem length_redirect (d scratch : R) (pending : List (Copy R)) :
    (redirect d scratch pending).length = pending.length := List.length_map _

theorem redirect_self (d : R) (pending : List (Copy R)) : redirect d d pending = pending := by
  refine (List.map_congr_left fun copy _ => ?_).trans (List.map_id pending)
  split
  · next h => exact Prod.ext rfl h.symm
  · rfl

theorem mem_redirect {d scratch d' : R} {pending : List (Copy R)} {src : Option R}
    (h : (d', src) ∈ pending) :
    (d', if src = some d then some scratch else src) ∈ redirect d scratch pending :=
  List.mem_map_of_mem h

theorem mem_sources_redirect {d scratch r : R} {pending : List (Copy R)}
    (h : r ∈ sources (redirect d scratch pending)) : r = scratch ∨ r ∈ sources pending ∧ r ≠ d := by
  obtain ⟨d', hmem⟩ := mem_sources.mp h
  obtain ⟨⟨d'', src⟩, hmem', heq⟩ := List.mem_map.mp hmem
  obtain ⟨rfl, hsrc⟩ := Prod.mk.inj heq
  split at hsrc
  · exact .inl (Option.some.inj hsrc).symm
  · next hne =>
    subst hsrc
    exact .inr ⟨mem_sources.mpr ⟨_, hmem'⟩, fun h => hne (congrArg some h)⟩

/-- After a redirection to another register, nothing reads `d`: its copy can go. -/
theorem find?_redirect_isSome {d scratch : R} {pending : List (Copy R)} (hne : scratch ≠ d)
    (hd : d ∈ pending.map Prod.fst) :
    ((redirect d scratch pending).find? (unread (redirect d scratch pending))).isSome = true := by
  rw [← redirect_fst d scratch] at hd
  obtain ⟨copy, hmem, rfl⟩ := List.mem_map.mp hd
  refine List.find?_isSome.mpr ⟨copy, hmem, unread_iff.mpr fun hread => ?_⟩
  rcases mem_sources_redirect hread with heq | ⟨-, hne'⟩
  · exact hne heq.symm
  · exact hne' rfl

/-- The copy that goes first, and the others. -/
theorem split_of_find? {pending : List (Copy R)} {copy : Copy R}
    (h : pending.find? (unread pending) = some copy) :
    ∃ earlier later, pending = earlier ++ copy :: later ∧
      pending.eraseP (unread pending) = earlier ++ later ∧ copy.1 ∉ sources pending := by
  obtain ⟨hunread, earlier, later, hsplit, hearlier⟩ := List.find?_eq_some_iff_append.mp h
  refine ⟨earlier, later, hsplit, ?_, unread_iff.mp hunread⟩
  have hne : ∀ c ∈ earlier, ¬unread pending c = true := fun c hc => by
    rw [Bool.not_eq_true, ← Bool.not_eq_true']
    exact hearlier c hc
  have herase := List.eraseP_append_right (copy :: later) hne
  rw [List.eraseP_cons_of_pos hunread, ← hsplit] at herase
  exact herase

theorem length_eraseP_unread {pending : List (Copy R)} {copy : Copy R}
    (h : pending.find? (unread pending) = some copy) :
    (pending.eraseP (unread pending)).length < pending.length := by
  obtain ⟨earlier, later, hsplit, herase, -⟩ := split_of_find? h
  rw [herase, hsplit, List.length_append, List.length_append, List.length_cons]
  omega

/-! ## All at once -/

/-- What a copy leaves in its destination. -/
def received (keeps : R → V → V) (zero : V) (before : R → V) (d : R) : Option R → V
  | some r => keeps d (before r)
  | none => zero

/-- The registers `after` the copies: each destination keeps what it can hold of
    its source, or is cleared; the `old` registers that are no destination are as
    `before`. -/
structure Assigns (keeps : R → V → V) (zero : V) (old : R → Prop) (before after : R → V)
    (pending : List (Copy R)) : Prop where
  copied : ∀ d r, (d, some r) ∈ pending → after d = keeps d (before r)
  cleared : ∀ d, (d, none) ∈ pending → after d = zero
  kept : ∀ r, old r → r ∉ pending.map Prod.fst → after r = before r

section Assigns

variable {keeps : R → V → V} {zero : V} {old old' : R → Prop} {before mid after : R → V}
  {pending : List (Copy R)}

omit [DecidableEq R] in
theorem Assigns.nil : Assigns keeps zero old before before ([] : List (Copy R)) where
  copied _ _ h := absurd h List.not_mem_nil
  cleared _ h := absurd h List.not_mem_nil
  kept _ _ _ := rfl

omit [DecidableEq R] in
/-- A copy that goes first, to a destination that no pending copy reads. -/
theorem Assigns.first {d : R} {src : Option R} {earlier later : List (Copy R)}
    (hsplit : pending = earlier ++ (d, src) :: later) (hd : old d)
    (hnodup : (pending.map Prod.fst).Nodup) (hunread : d ∉ sources pending)
    (hold : ∀ r, old r → old' r) (hsources : ∀ r ∈ sources pending, old r)
    (hmid : mid d = received keeps zero before d src)
    (hframe : ∀ r, old r → r ≠ d → mid r = before r)
    (h : Assigns keeps zero old' mid after (earlier ++ later)) :
    Assigns keeps zero old before after pending := by
  have hmem : ∀ copy : Copy R, copy ∈ pending ↔ copy = (d, src) ∨ copy ∈ earlier ++ later := by
    intro copy
    rw [hsplit]
    simp only [List.mem_append, List.mem_cons]
    exact ⟨fun h => by tauto, fun h => by tauto⟩
  have hfst : d ∉ (earlier ++ later).map Prod.fst := by
    rw [hsplit, List.map_append, List.map_cons] at hnodup
    have hperm := (List.perm_middle.nodup_iff).mp hnodup
    rw [List.map_append]
    exact (List.nodup_cons.mp hperm).1
  -- The destination is final: no other copy writes it.
  have hfinal : after d = mid d := h.kept d (hold d hd) hfst
  refine ⟨fun d' r hcopy => ?_, fun d' hcopy => ?_, fun r hr hne => ?_⟩
  · rcases (hmem _).mp hcopy with heq | hrest
    · obtain ⟨rfl, rfl⟩ := Prod.mk.inj heq
      rw [hfinal, hmid, received]
    · have hread : r ∈ sources pending := mem_sources.mpr ⟨d', hcopy⟩
      have hne : r ≠ d := by
        rintro rfl
        exact hunread hread
      rw [h.copied d' r hrest, hframe r (hsources r hread) hne]
  · rcases (hmem _).mp hcopy with heq | hrest
    · obtain ⟨rfl, rfl⟩ := Prod.mk.inj heq
      rw [hfinal, hmid, received]
    · exact h.cleared d' hrest
  · have hr' : r ∉ (earlier ++ later).map Prod.fst := by
      intro hin
      obtain ⟨copy, hcopy, rfl⟩ := List.mem_map.mp hin
      exact hne (List.mem_map_of_mem ((hmem copy).mpr (.inr hcopy)))
    have hrd : r ≠ d := by
      rintro rfl
      exact hne (List.mem_map.mpr ⟨_, (hmem _).mpr (.inl rfl), rfl⟩)
    rw [h.kept r (hold r hr) hr', hframe r hr hrd]

/-- Saving the value of `d` in a scratch register. -/
theorem Assigns.save {d scratch : R} (hold : ∀ r, old r → old' r)
    (hsources : ∀ r ∈ sources pending, old r) (hmid : mid scratch = before d)
    (hframe : ∀ r, old r → mid r = before r)
    (h : Assigns keeps zero old' mid after (redirect d scratch pending)) :
    Assigns keeps zero old before after pending := by
  refine ⟨fun d' r hcopy => ?_, fun d' hcopy => ?_, fun r hr hne => ?_⟩
  · have hcopy' : (d', if some r = some d then some scratch else some r) ∈
        redirect d scratch pending := mem_redirect hcopy
    by_cases heq : r = d
    · subst heq
      rw [if_pos rfl] at hcopy'
      rw [h.copied d' scratch hcopy', hmid]
    · rw [if_neg fun hs => heq (Option.some.inj hs)] at hcopy'
      rw [h.copied d' r hcopy', hframe r (hsources r (mem_sources.mpr ⟨d', hcopy⟩))]
  · exact h.cleared d' (mem_redirect hcopy)
  · rw [h.kept r (hold r hr) (by rwa [redirect_fst]), hframe r hr]

end Assigns

end Crabbit.Lib
