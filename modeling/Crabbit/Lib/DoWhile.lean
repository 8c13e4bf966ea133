/-
  Crabbit.Lib.DoWhile

  A loop whose body runs before its condition is looked at.
-/

import Mathlib.Logic.Function.Iterate

namespace Crabbit.Lib

section DoWhile

variable {σ : Type*}

/-- `loop { s = step(s); if !again(s) { break } }`, for `fuel` rounds at
    most. -/
def doWhile (step : σ → σ) (again : σ → Bool) : Nat → σ → σ
  | 0, s => s
  | fuel + 1, s => if again (step s) then doWhile step again fuel (step s) else step s

/-- The loop stops at the first round that clears the condition. -/
theorem doWhile_eq_iterate (step : σ → σ) (again : σ → Bool) (fuel : Nat) (s : σ)
    (h : ∃ k, 0 < k ∧ k ≤ fuel ∧ again (step^[k] s) = false) :
    ∃ k, 0 < k ∧ k ≤ fuel ∧ doWhile step again fuel s = step^[k] s ∧
      again (step^[k] s) = false ∧ ∀ j, 0 < j → j < k → again (step^[j] s) = true := by
  induction fuel generalizing s with
  | zero =>
    obtain ⟨k, hk, hle, -⟩ := h
    omega
  | succ fuel ih =>
    rw [doWhile]
    by_cases hstop : again (step s) = true
    · obtain ⟨k, hk, hle, hfalse⟩ := h
      -- The first round does not end the loop, so `k` is a later one.
      have hk1 : k ≠ 1 := by
        rintro rfl
        rw [Function.iterate_one, hstop] at hfalse
        cases hfalse
      obtain ⟨k, rfl⟩ : ∃ k', k = k' + 1 := ⟨k - 1, by omega⟩
      rw [Function.iterate_succ_apply] at hfalse
      obtain ⟨k', hk', hle', heq, hend, hbefore⟩ :=
        ih _ ⟨k, by omega, by omega, hfalse⟩
      refine ⟨k' + 1, by omega, by omega, ?_, hend, fun j hj hjk => ?_⟩
      · rw [if_pos hstop]
        exact heq
      · obtain ⟨j, rfl⟩ : ∃ j', j = j' + 1 := ⟨j - 1, by omega⟩
        rcases Nat.eq_zero_or_pos j with rfl | hj0
        · exact hstop
        · exact hbefore j hj0 (by omega)
    · refine ⟨1, by omega, by omega, ?_, ?_, fun j hj hj1 => by omega⟩
      · rw [if_neg hstop]
        rfl
      · rwa [Function.iterate_one, ← Bool.not_eq_true]

/-- A loop whose states are a sequence `f n, f (n + 1), ...` ends in the first
    member past `f n` that clears the condition. -/
theorem doWhile_eq_of_sequence (step : σ → σ) (again : σ → Bool) (f : Nat → σ) (n fuel : Nat)
    (hstep : ∀ p, n ≤ p → step (f p) = f (p + 1))
    (h : ∃ p, n < p ∧ p ≤ n + fuel ∧ again (f p) = false) :
    ∃ p, n < p ∧ doWhile step again fuel (f n) = f p ∧ again (f p) = false ∧
      ∀ j, n < j → j < p → again (f j) = true := by
  have hiter : ∀ k, step^[k] (f n) = f (n + k) := by
    intro k
    induction k with
    | zero => rfl
    | succ k ih =>
      rw [Function.iterate_succ_apply', ih, hstep _ (Nat.le_add_right n k)]
      rfl
  obtain ⟨p, hnp, hp, hfalse⟩ := h
  obtain ⟨k, hk, -, heq, hend, hbefore⟩ :=
    doWhile_eq_iterate step again fuel (f n) ⟨p - n, by omega, by omega, by
      rw [hiter, Nat.add_sub_cancel' (Nat.le_of_lt hnp)]
      exact hfalse⟩
  refine ⟨n + k, by omega, ?_, ?_, fun j hj hjk => ?_⟩
  · rw [heq, hiter]
  · rwa [hiter] at hend
  · have := hbefore (j - n) (by omega) (by omega)
    rwa [hiter, Nat.add_sub_cancel' (Nat.le_of_lt hj)] at this

end DoWhile

end Crabbit.Lib
