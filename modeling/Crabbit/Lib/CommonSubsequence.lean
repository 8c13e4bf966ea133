/-
  Crabbit.Lib.CommonSubsequence

  Longest common subsequences: their length by recursion on both lists, and
  that no common subsequence is longer.
-/

import Mathlib.Data.List.Basic

namespace Crabbit.Lib

variable {κ : Type}

/-- `n` is the length of a longest common subsequence. -/
def LongestCommon (a b : List κ) (n : Nat) : Prop :=
  (∃ l : List κ, l.Sublist a ∧ l.Sublist b ∧ l.length = n) ∧
    ∀ l : List κ, l.Sublist a → l.Sublist b → l.length ≤ n

/-- A subsequence of `x :: a` that does not begin with `x` is one of `a`. -/
theorem sublist_of_head_ne {x z : κ} {l a : List κ} (h : (z :: l).Sublist (x :: a))
    (hne : z ≠ x) : (z :: l).Sublist a := by
  rcases List.sublist_cons_iff.mp h with h | ⟨rest, heq, -⟩
  · exact h
  · exact absurd (List.cons.inj heq).1 hne

variable [DecidableEq κ]

/-- The length of a longest common subsequence. -/
def lcsLength : List κ → List κ → Nat
  | [], _ => 0
  | _ :: _, [] => 0
  | x :: a, y :: b =>
    if x = y then lcsLength a b + 1 else max (lcsLength a (y :: b)) (lcsLength (x :: a) b)
termination_by a b => a.length + b.length

theorem lcsLength_nil_left (b : List κ) : lcsLength [] b = 0 := by rw [lcsLength]

theorem lcsLength_nil_right (a : List κ) : lcsLength a [] = 0 := by
  cases a with
  | nil => rw [lcsLength]
  | cons x a => rw [lcsLength]

theorem lcsLength_cons_cons (x y : κ) (a b : List κ) :
    lcsLength (x :: a) (y :: b) = if x = y then lcsLength a b + 1
      else max (lcsLength a (y :: b)) (lcsLength (x :: a) b) := by
  rw [lcsLength]

/-- No common subsequence is longer. -/
theorem length_le_lcsLength {l : List κ} (a b : List κ) (ha : l.Sublist a) (hb : l.Sublist b) :
    l.length ≤ lcsLength a b := by
  fun_induction lcsLength a b generalizing l with
  | case1 b =>
    rw [List.sublist_nil.mp ha]
    exact Nat.le_refl 0
  | case2 x a =>
    rw [List.sublist_nil.mp hb]
    exact Nat.le_refl 0
  | case3 a x b ih =>
    have h := ih ha.tail hb.tail
    rw [List.length_tail] at h
    omega
  | case4 x a y b hne ihleft ihright =>
    cases l with
    | nil => exact Nat.zero_le _
    | cons z l =>
      -- The common subsequence begins with at most one of the two heads.
      by_cases hz : z = x
      · have hzy : z ≠ y := hz ▸ hne
        exact Nat.le_trans (ihright ha (sublist_of_head_ne hb hzy)) (Nat.le_max_right _ _)
      · exact Nat.le_trans (ihleft (sublist_of_head_ne ha hz) hb) (Nat.le_max_left _ _)

end Crabbit.Lib
