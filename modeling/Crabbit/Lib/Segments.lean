/-
  Crabbit.Lib.Segments

  Lists made of segments, one for each item.  Two ways of making the segments
  that always give the same list make the same segments, when the length of a
  segment does not depend on what its item holds, and every entry of it does.
-/

import Mathlib.Data.List.Basic

namespace Crabbit.Lib

variable {Item Content Entry : Type}

/-- The segments of the items, one after the other. -/
def segments (make : Item → Content → List Entry) : List Item → List Content → List Entry
  | item :: items, content :: contents => make item content ++ segments make items contents
  | _, _ => []

theorem segments_congr {f g : Item → Content → List Entry} {items : List Item}
    (h : ∀ item ∈ items, f item = g item) (contents : List Content) :
    segments f items contents = segments g items contents := by
  induction items generalizing contents with
  | nil => rfl
  | cons item items ih =>
    obtain ⟨hitem, hitems⟩ := List.forall_mem_cons.mp h
    cases contents with
    | nil => rfl
    | cons content contents => rw [segments, segments, hitem, ih hitems]

/-- A segment has a length of its own, and each entry of it varies. -/
structure Varies (make : Content → List Entry) : Prop where
  length_eq : ∀ content content', (make content).length = (make content').length
  entry : ∀ content n, n < (make content).length →
    ∃ content', (make content')[n]? ≠ (make content)[n]?

/-- A segment that varies is not longer than another it starts a list with,
    when the rest of that list is fixed. -/
theorem Varies.length_le {f g : Content → List Entry} (hf : Varies f) (hg : Varies g)
    {rest rest' : List Entry} (h : ∀ content, f content ++ rest = g content ++ rest')
    (content : Content) : (f content).length ≤ (g content).length := by
  by_contra hlt
  obtain ⟨content', hne⟩ := hf.entry content (g content).length (Nat.lt_of_not_le hlt)
  -- Behind the segment of `g` the entries of `f` are those of the fixed rest.
  have hfixed : ∀ c, (f c)[(g content).length]? = rest'[0]? := by
    intro c
    have hlen := hf.length_eq c content
    have hat : (f c ++ rest)[(g content).length]? = (g c ++ rest')[(g content).length]? := by
      rw [h c]
    rw [hg.length_eq content c] at hat hlt ⊢
    rw [List.getElem?_append_left (by omega), List.getElem?_append_right (Nat.le_refl _),
      Nat.sub_self] at hat
    exact hat
  exact hne ((hfixed content').trans (hfixed content).symm)

/-- The same lists are of the same segments. -/
theorem segments_inj {f g : Item → Content → List Entry} {items : List Item}
    (hf : ∀ item ∈ items, Varies (f item)) (hg : ∀ item ∈ items, Varies (g item))
    (h : ∀ contents : List Content, contents.length = items.length →
      segments f items contents = segments g items contents) :
    ∀ item ∈ items, ∀ content, f item content = g item content := by
  induction items with
  | nil => exact fun _ hitem => absurd hitem List.not_mem_nil
  | cons item items ih =>
    obtain ⟨hfitem, hf⟩ := List.forall_mem_cons.mp hf
    obtain ⟨hgitem, hg⟩ := List.forall_mem_cons.mp hg
    have hsplit : ∀ content contents, contents.length = items.length →
        f item content = g item content ∧
          segments f items contents = segments g items contents := by
      intro content contents hlen
      have happ : ∀ c, f item c ++ segments f items contents =
          g item c ++ segments g items contents :=
        fun c => h (c :: contents) (congrArg Nat.succ hlen)
      have hle := hfitem.length_le hgitem happ content
      have hge := hgitem.length_le hfitem (fun c => (happ c).symm) content
      exact List.append_inj (happ content) (Nat.le_antisymm hle hge)
    refine List.forall_mem_cons.mpr ⟨fun content => ?_, fun other hother content => ?_⟩
    · exact (hsplit content (List.replicate items.length content) List.length_replicate).1
    · exact ih hf hg (fun contents hlen => (hsplit content contents hlen).2) other hother content

end Crabbit.Lib
