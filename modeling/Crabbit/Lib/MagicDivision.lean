/-
  Crabbit.Lib.MagicDivision

  Division by a constant through a multiplication.

  A multiplier `M` with `M * d = P + e` gives `b * M / P = b / d` for every
  dividend `b < t` as soon as the error `e` is small against the largest
  `n < t` with `n ≡ -1 (mod d)` (`mul_div_eq_div`).  Negative dividends round
  the other way, which is `neg_mul_ediv_eq`.

  `mulHigh_halfWords` computes the high word of a product from half-word
  products, for signed and unsigned operands alike.
-/

import Mathlib.Data.Nat.ModEq
import Mathlib.Tactic.Ring
import Mathlib.Tactic.Linarith

namespace Crabbit.Lib

/-- The largest `n < t` with `n ≡ -1 (mod d)`, for `0 < d ≤ t`. -/
def magicBound (t d : Nat) : Nat := t - 1 - t % d

theorem magicBound_add_one {t d : Nat} (hd : 0 < d) (hdt : d ≤ t) :
    magicBound t d + 1 = d * (t / d) := by
  have hsplit := Nat.div_add_mod t d
  have hmod := Nat.mod_lt t hd
  unfold magicBound
  omega

theorem le_magicBound_add_one {t d : Nat} (hd : 0 < d) (hdt : d ≤ t) : d ≤ magicBound t d + 1 := by
  rw [magicBound_add_one hd hdt]
  exact Nat.le_mul_of_pos_right d (Nat.div_pos hdt hd)

theorem magicBound_lt {t d : Nat} (ht : 0 < t) : magicBound t d < t := by
  unfold magicBound
  omega

section Magic

variable {d t e P M : Nat}

/-- The error of the multiplier never carries a dividend over the next
    multiple of `d`. -/
theorem mul_add_lt_of_bound {b : Nat} (hd : 0 < d) (hdt : d ≤ t)
    (he : magicBound t d * e < P) (hb : b < t) : b * (P + e) < d * (b / d + 1) * P := by
  have hnext : b < d * (b / d + 1) := Nat.lt_mul_div_succ b hd
  rcases Nat.lt_or_ge (magicBound t d) b with hlt | hle
  · -- Beyond the bound the quotient is that of `t`, and at least two
    -- dividends separate `b` from the next multiple.
    have hbound := magicBound_add_one hd hdt
    have hd1 := le_magicBound_add_one hd hdt
    have hsplit := Nat.div_add_mod t d
    have hmod := Nat.mod_lt t hd
    have hquot : b / d = t / d := by
      apply Nat.div_eq_of_lt_le
      · rw [Nat.mul_comm]
        omega
      · rw [Nat.mul_comm, Nat.mul_add]
        omega
    have hgap : b + 2 ≤ d * (b / d + 1) := by
      rw [hquot, Nat.mul_add]
      omega
    have hrest : (b - magicBound t d) * e ≤ magicBound t d * e :=
      Nat.mul_le_mul_right e (by omega)
    calc b * (P + e) = b * P + (magicBound t d * e + (b - magicBound t d) * e) := by
          rw [← Nat.add_mul, Nat.add_sub_cancel' hlt.le, Nat.mul_add]
      _ < b * P + (P + P) := by omega
      _ = (b + 2) * P := by ring
      _ ≤ d * (b / d + 1) * P := Nat.mul_le_mul_right P hgap
  · have hbe : b * e ≤ magicBound t d * e := Nat.mul_le_mul_right e hle
    calc b * (P + e) = b * P + b * e := Nat.mul_add _ _ _
      _ < b * P + P := by omega
      _ = (b + 1) * P := by ring
      _ ≤ d * (b / d + 1) * P := Nat.mul_le_mul_right P hnext

/-- The dividend `t` itself is beyond the bound, but when `P` is a multiple of
    `t` the least error still fits. -/
theorem mul_add_le_of_dvd {S : Nat} (hd : 0 < d) (hS : 0 < S) (hP : P = S * t)
    (hM : M * d = P + e) (he : e ≤ d) : t * (P + e) ≤ d * (t / d + 1) * P := by
  have hsplit := Nat.div_add_mod t d
  have hmod := Nat.mod_lt t hd
  have hgap : t + (d - t % d) = d * (t / d + 1) := by
    rw [Nat.mul_add]
    omega
  -- Both errors complete `P` to a multiple of `d`; `e` is the smaller one.
  have hother : P + S * (d - t % d) = d * (S * (t / d + 1)) := by
    rw [hP, ← Nat.mul_add, hgap]
    ring
  have hle : e ≤ S * (d - t % d) := by
    have hpos : 0 < S * (d - t % d) := Nat.mul_pos hS (by omega)
    by_contra hlt
    have hdvd : d ∣ e - S * (d - t % d) := by
      have h1 : d ∣ P + e := ⟨M, by rw [← hM]; ring⟩
      have h2 : d ∣ P + S * (d - t % d) := ⟨_, hother⟩
      have h3 := Nat.dvd_sub h1 h2
      rwa [Nat.add_sub_add_left] at h3
    have := Nat.le_of_dvd (by omega) hdvd
    omega
  calc t * (P + e) ≤ t * (P + S * (d - t % d)) := Nat.mul_le_mul_left t (by omega)
    _ = (t + (d - t % d)) * P := by rw [hP]; ring
    _ = d * (t / d + 1) * P := by rw [hgap]

/-- A dividend whose product stays below the next multiple is divided
    exactly. -/
theorem mul_div_eq_div_of_lt {b : Nat} (hd : 0 < d) (hM : M * d = P + e)
    (h : b * (P + e) < d * (b / d + 1) * P) : b * M / P = b / d := by
  apply Nat.div_eq_of_lt_le
  · apply Nat.le_of_mul_le_mul_right _ hd
    calc b / d * P * d = b / d * d * P := by ring
      _ ≤ b * P := Nat.mul_le_mul_right P (Nat.div_mul_le_self b d)
      _ ≤ b * (P + e) := Nat.mul_le_mul_left b (by omega)
      _ = b * M * d := by rw [← hM]; ring
  · apply Nat.lt_of_mul_lt_mul_right (a := d)
    calc b * M * d = b * (P + e) := by rw [← hM]; ring
      _ < d * (b / d + 1) * P := h
      _ = (b / d + 1) * P * d := by ring

/-- Magic division. -/
theorem mul_div_eq_div {b : Nat} (hd : 0 < d) (hdt : d ≤ t) (hM : M * d = P + e)
    (he : magicBound t d * e < P) (hb : b < t) : b * M / P = b / d :=
  mul_div_eq_div_of_lt hd hM (mul_add_lt_of_bound hd hdt he hb)

/-- The floor of a negative product is one below the negated quotient. -/
theorem neg_mul_ediv_eq {c : Nat} (hd : 0 < d) (hP : 0 < P) (hc : 0 < c) (he : 0 < e)
    (hM : M * d = P + e) (h : c * (P + e) ≤ d * (c / d + 1) * P) :
    (-((c : Int) * M)) / P = -((c / d : Nat) : Int) - 1 := by
  have hd' : (0 : Int) < d := by exact_mod_cast hd
  have hP' : (0 : Int) < P := by exact_mod_cast hP
  have hprod : (c : Int) * M * d = c * (P + e) := by
    have : ((M * d : Nat) : Int) = ((P + e : Nat) : Int) := by rw [hM]
    push_cast at this
    rw [mul_assoc, this]
  apply le_antisymm
  · -- `c * M` is strictly above `c / d * P`: the error is positive.
    rw [Int.le_sub_one_iff, Int.ediv_lt_iff_lt_mul hP']
    have hlow : ((c / d : Nat) : Int) * d ≤ c := by exact_mod_cast Nat.div_mul_le_self c d
    have hce : (0 : Int) < c * e := by exact_mod_cast Nat.mul_pos hc he
    have hlt : ((c / d : Nat) : Int) * P * d < c * M * d := by
      have := mul_le_mul_of_nonneg_right hlow hP'.le
      rw [hprod]
      linarith
    have := lt_of_mul_lt_mul_right hlt hd'.le
    linarith
  · rw [Int.le_ediv_iff_mul_le hP']
    have hup : (c : Int) * (P + e) ≤ d * (((c / d : Nat) : Int) + 1) * P := by exact_mod_cast h
    have hle : (c : Int) * M * d ≤ (((c / d : Nat) : Int) + 1) * P * d := by
      rw [hprod]
      linarith
    have := le_of_mul_le_mul_right hle hd'
    linarith

end Magic

/-! ## Long division, one bit at a time -/

section Double

variable {x n c : Nat}

theorem div_mod_two_mul_add_of_le (hn : 0 < n) (hc : c ≤ 1) (h : n ≤ 2 * (x % n) + c) :
    (2 * x + c) / n = 2 * (x / n) + 1 ∧ (2 * x + c) % n = 2 * (x % n) + c - n := by
  have hsplit := Nat.mod_add_div x n
  have hmod := Nat.mod_lt x hn
  rw [Nat.div_mod_unique hn]
  constructor
  · rw [Nat.mul_add, Nat.mul_left_comm]
    omega
  · omega

theorem div_mod_two_mul_add_of_lt (hn : 0 < n) (h : 2 * (x % n) + c < n) :
    (2 * x + c) / n = 2 * (x / n) ∧ (2 * x + c) % n = 2 * (x % n) + c := by
  have hsplit := Nat.mod_add_div x n
  rw [Nat.div_mod_unique hn]
  constructor
  · rw [Nat.mul_left_comm]
    omega
  · omega

/-- Comparing quotient and remainder decides a product bound. -/
theorem le_mul_iff_div_mod {e : Nat} (hn : 0 < n) :
    x ≤ n * e ↔ x / n < e ∨ (x / n = e ∧ x % n = 0) := by
  have hsplit := Nat.mod_add_div x n
  have hmod := Nat.mod_lt x hn
  constructor
  · intro h
    rcases Nat.lt_trichotomy (x / n) e with hlt | heq | hgt
    · exact Or.inl hlt
    · refine Or.inr ⟨heq, ?_⟩
      rw [heq] at hsplit
      omega
    · have := Nat.mul_le_mul_left n (Nat.succ_le_of_lt hgt)
      rw [Nat.mul_succ] at this
      omega
  · rintro (hlt | ⟨heq, hzero⟩)
    · have := Nat.mul_le_mul_left n (Nat.succ_le_of_lt hlt)
      rw [Nat.mul_succ] at this
      omega
    · rw [heq, hzero] at hsplit
      omega

end Double

/-! ## The high word of a product -/

/-- The high word of `u * v` from the products of half words. -/
theorem mulHigh_halfWords {B : Int} (hB : 0 < B) (u v : Int) :
    u * v / (B * B)
      = u / B * (v / B) + (u / B * (v % B) + u % B * (v % B) / B) / B
        + (u % B * (v / B) + (u / B * (v % B) + u % B * (v % B) / B) % B) / B := by
  have hu := Int.mul_ediv_add_emod u B
  have hv := Int.mul_ediv_add_emod v B
  generalize u / B = u₁ at *
  generalize u % B = u₀ at *
  generalize v / B = v₁ at *
  generalize v % B = v₀ at *
  have hsplit : u * v = u₀ * v₀ + B * (B * (u₁ * v₁) + u₁ * v₀ + u₀ * v₁) := by
    rw [← hu, ← hv]
    ring
  rw [← Int.ediv_ediv_of_nonneg hB.le, hsplit, Int.add_mul_ediv_left _ _ hB.ne']
  -- The cross products meet in the middle word; `t` is its first half.
  have ht := Int.mul_ediv_add_emod (u₁ * v₀ + u₀ * v₀ / B) B
  have hmiddle : u₀ * v₀ / B + (B * (u₁ * v₁) + u₁ * v₀ + u₀ * v₁)
      = u₀ * v₁ + (u₁ * v₀ + u₀ * v₀ / B) % B
        + B * (u₁ * v₁ + (u₁ * v₀ + u₀ * v₀ / B) / B) := by
    rw [Int.mul_add]
    linarith
  rw [hmiddle, Int.add_mul_ediv_left _ _ hB.ne']
  ring

end Crabbit.Lib
