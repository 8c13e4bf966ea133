/-
  Crabbit.Lib.Rewriting

  Rewriting that comes to an end.

  The measure that goes down may speak of a witness of the invariant (a rank, a
  schedule): each step then says what the witness becomes.
-/

import Mathlib.Logic.Relation
import Mathlib.Tactic.TypeStar

namespace Crabbit.Lib

section Rewriting

variable {α γ β : Type*} {r : α → α → Prop}

/-- A step relation with a measure on states and witnesses ends everywhere the
    invariant holds. -/
theorem acc_of_measure {lt : β → β → Prop} (hlt : WellFounded lt) {inv : α → γ → Prop}
    {m : α → γ → β}
    (hstep : ∀ a g b, inv a g → r a b → ∃ g', inv b g' ∧ lt (m b g') (m a g))
    {a : α} {g : γ} (h : inv a g) : Acc (fun b a => r a b) a := by
  have hall : ∀ n a g, inv a g → m a g = n → Acc (fun b a => r a b) a := by
    intro n
    induction n using hlt.induction with
    | _ n ih =>
      rintro a g ha rfl
      refine Acc.intro a fun b hb => ?_
      obtain ⟨g', hb', hlt'⟩ := hstep a g b ha hb
      exact ih _ hlt' b g' hb' rfl
  exact hall _ a g h rfl

/-- The invariant, of every state on the way. -/
theorem exists_inv_of_reflTransGen {inv : α → γ → Prop}
    (hstep : ∀ a g b, inv a g → r a b → ∃ g', inv b g')
    {a b : α} {g : γ} (h : inv a g) (hab : Relation.ReflTransGen r a b) : ∃ g', inv b g' := by
  induction hab with
  | refl => exact ⟨g, h⟩
  | tail _ hbc ih =>
    obtain ⟨g', hb⟩ := ih
    exact hstep _ g' _ hb hbc

/-- Where rewriting ends, it ends in a state without steps. -/
theorem exists_fixpoint {a : α} (h : Acc (fun b a => r a b) a) :
    ∃ b, Relation.ReflTransGen r a b ∧ ∀ c, ¬r b c := by
  induction h with
  | intro a _ ih =>
    by_cases hstuck : ∃ b, r a b
    · obtain ⟨b, hab⟩ := hstuck
      obtain ⟨c, hbc, hc⟩ := ih b hab
      exact ⟨c, Relation.ReflTransGen.head hab hbc, hc⟩
    · exact ⟨a, .refl, fun c hc => hstuck ⟨c, hc⟩⟩

end Rewriting

end Crabbit.Lib
