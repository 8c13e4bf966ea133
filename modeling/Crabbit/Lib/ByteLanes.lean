/-
  Crabbit.Lib.ByteLanes

  Words of 64 bits as eight byte lanes, and the search for zero lanes by a
  subtraction: one is subtracted from every lane at once, so a lane that is zero
  borrows from the next one, and a one there looks like a zero.
-/

import Crabbit.Lib.BitCounts
import Mathlib.Tactic.Ring

namespace Crabbit.Lib

/-! ## Lanes -/

def lane (v : BitVec 64) (k : Nat) : BitVec 8 := v.extractLsb' (8 * k) 8

/-- A lane of ones or zeros. -/
def laneMask (b : Bool) : BitVec 8 := if b then 0xff else 0

theorem getLsbD_lane (v : BitVec 64) (k : Nat) {j : Nat} (hj : j < 8) :
    (lane v k).getLsbD j = v.getLsbD (8 * k + j) := by
  rw [lane, BitVec.getLsbD_extractLsb', decide_eq_true hj, Bool.true_and]

theorem toNat_lane (v : BitVec 64) (k : Nat) : (lane v k).toNat = v.toNat / 256 ^ k % 256 := by
  rw [lane, BitVec.extractLsb'_toNat, Nat.shiftRight_eq_div_pow, Nat.pow_mul]

theorem lane_eq {v : BitVec 64} {k : Nat} {b : BitVec 8}
    (h : ∀ j < 8, v.getLsbD (8 * k + j) = b.getLsbD j) : lane v k = b :=
  BitVec.eq_of_getLsbD_eq fun j hj => (getLsbD_lane v k hj).trans (h j hj)

theorem lane_xor (x y : BitVec 64) (k : Nat) : lane (x ^^^ y) k = lane x k ^^^ lane y k :=
  lane_eq fun j hj => by
    rw [BitVec.getLsbD_xor, BitVec.getLsbD_xor, getLsbD_lane x k hj, getLsbD_lane y k hj]

theorem lane_or (x y : BitVec 64) (k : Nat) : lane (x ||| y) k = lane x k ||| lane y k :=
  lane_eq fun j hj => by
    rw [BitVec.getLsbD_or, BitVec.getLsbD_or, getLsbD_lane x k hj, getLsbD_lane y k hj]

theorem getLsbD_laneMask (b : Bool) {j : Nat} (hj : j < 8) : (laneMask b).getLsbD j = b := by
  have hall : ∀ j < 8, (0xff : BitVec 8).getLsbD j = true ∧ (0 : BitVec 8).getLsbD j = false := by
    decide
  cases b
  · exact (hall j hj).2
  · exact (hall j hj).1

theorem laneMask_inj {a b : Bool} : laneMask a = laneMask b ↔ a = b := by
  revert a b
  decide

/-! ## The same byte in every lane -/

theorem mul_spread_one (b n : Nat) : b * spread n 1 = spread n b := by
  induction n with
  | zero => exact Nat.mul_zero b
  | succ n ih =>
    rw [spread, spread, ← ih]
    ring

theorem spread_lane {b : Nat} (hb : b < 256) {n k : Nat} (hk : k < n) :
    spread n b / 256 ^ k % 256 = b := by
  induction n generalizing k with
  | zero => omega
  | succ n ih =>
    rw [spread]
    cases k with
    | zero =>
      rw [Nat.pow_zero, Nat.div_one]
      omega
    | succ k =>
      have hdiv : (b + 256 * spread n b) / 256 = spread n b := by omega
      rw [Nat.pow_succ', ← Nat.div_div_eq_div_mul, hdiv]
      exact ih (by omega)

theorem spread_lt {b : Nat} (hb : b < 256) (n : Nat) : spread n b < 256 ^ n := by
  induction n with
  | zero => exact Nat.one_pos
  | succ n ih =>
    rw [spread, Nat.pow_succ]
    omega

/-- A byte times ones is that byte in every lane. -/
theorem lane_mul_ones {v : BitVec 64} {b : BitVec 8} (hv : v.toNat = b.toNat) {k : Nat}
    (hk : k < 8) : lane (v * 0x0101010101010101#64) k = b := by
  have hones : (0x0101010101010101#64).toNat = spread 8 1 := by decide
  have hprod : (v * 0x0101010101010101#64).toNat = spread 8 b.toNat := by
    rw [BitVec.toNat_mul, hv, hones, mul_spread_one]
    exact Nat.mod_eq_of_lt (spread_lt b.isLt 8)
  rw [← BitVec.toNat_inj, toNat_lane, hprod]
  exact spread_lane b.isLt hk

/-! ## Borrows -/

/-- What lane `k` gives to the lane below it when one is subtracted from every
    lane. -/
def borrow (t : Nat) : Nat → Nat
  | 0 => 0
  | k + 1 => if t / 256 ^ k % 256 < 1 + borrow t k then 1 else 0

theorem borrow_le (t k : Nat) : borrow t k ≤ 1 := by
  cases k with
  | zero => exact Nat.zero_le 1
  | succ k =>
    rw [borrow]
    split
    · exact Nat.le_refl 1
    · exact Nat.zero_le 1

/-- The difference from lane `k` on. -/
theorem sub_spread_div {n k : Nat} (hk : k ≤ n) (t : Nat) :
    (t + 256 ^ n - spread n 1) / 256 ^ k =
      t / 256 ^ k + 256 ^ (n - k) - spread (n - k) 1 - borrow t k := by
  induction k with
  | zero => rw [Nat.pow_zero, Nat.div_one, Nat.div_one, Nat.sub_zero, borrow, Nat.sub_zero]
  | succ k ih =>
    have hn : n - k = (n - (k + 1)) + 1 := by omega
    have hlt := spread_lt (show 1 < 256 by decide) (n - (k + 1))
    have hle := borrow_le t k
    rw [Nat.pow_succ, ← Nat.div_div_eq_div_mul, ih (by omega), ← Nat.div_div_eq_div_mul, hn,
      spread, Nat.pow_succ, borrow]
    generalize t / 256 ^ k = q
    generalize 256 ^ (n - (k + 1)) = p at *
    generalize spread (n - (k + 1)) 1 = o at *
    generalize borrow t k = c at *
    split
    · omega
    · omega

/-- A lane of the difference. -/
theorem lane_sub_spread {n k : Nat} (hk : k < n) (t : Nat) :
    (t + 256 ^ n - spread n 1) / 256 ^ k % 256 = (t / 256 ^ k % 256 + 255 - borrow t k) % 256 := by
  have hn : n - k = (n - (k + 1)) + 1 := by omega
  have hlt := spread_lt (show 1 < 256 by decide) (n - (k + 1))
  have hle := borrow_le t k
  rw [sub_spread_div (by omega), hn, spread, Nat.pow_succ]
  generalize t / 256 ^ k = q
  generalize 256 ^ (n - (k + 1)) = p at *
  generalize spread (n - (k + 1)) 1 = o at *
  generalize borrow t k = c at *
  omega

set_option maxRecDepth 8000 in
/-- A lane that was below 128 and is not after the subtraction had to borrow. -/
theorem borrows_iff : ∀ b < 256, ∀ c < 2,
    (((b + 255 - c) % 256).testBit 7 && !b.testBit 7) = decide (b < 1 + c) := by
  decide

/-! ## Zero lanes -/

/-- The lanes marked by their highest bits. -/
def zeroMarks (t : BitVec 64) : BitVec 64 :=
  (t - 0x0101010101010101#64) &&& (t ^^^ BitVec.allOnes 64) &&& 0x8080808080808080#64

theorem getLsbD_highBits : ∀ i < 64,
    (0x8080808080808080#64).getLsbD i = decide (i % 8 = 7) := by
  decide

/-- A lane is marked when it borrows. -/
theorem getLsbD_zeroMarks (t : BitVec 64) {i : Nat} (hi : i < 64) :
    (zeroMarks t).getLsbD i = (decide (i % 8 = 7) && decide (borrow t.toNat (i / 8 + 1) = 1)) := by
  rw [zeroMarks, BitVec.getLsbD_and, getLsbD_highBits i hi, Bool.and_comm]
  by_cases hplace : i % 8 = 7
  · have hbit : i = 8 * (i / 8) + 7 := by omega
    have hk : i / 8 < 8 := by omega
    rw [decide_eq_true hplace, Bool.true_and, Bool.true_and]
    generalize i / 8 = k at *
    subst hbit
    have hsub : (lane (t - 0x0101010101010101#64) k).toNat =
        ((lane t k).toNat + 255 - borrow t.toNat k) % 256 := by
      have hlane := lane_sub_spread hk t.toNat
      have hspread : spread 8 1 = 0x0101010101010101 := by decide
      have hdiff : 2 ^ 64 - (0x0101010101010101#64).toNat + t.toNat =
          t.toNat + 256 ^ 8 - spread 8 1 := by
        rw [hspread, show (0x0101010101010101#64).toNat = 0x0101010101010101 from rfl]
        omega
      have hmod : ∀ x : Nat, x % 2 ^ 64 / 256 ^ k % 256 = x / 256 ^ k % 256 := by
        intro x
        apply Nat.eq_of_testBit_eq
        intro j
        rw [show 256 = 2 ^ 8 from rfl, ← Nat.pow_mul, Nat.testBit_mod_two_pow,
          Nat.testBit_mod_two_pow, Nat.testBit_div_two_pow, Nat.testBit_div_two_pow,
          Nat.testBit_mod_two_pow]
        by_cases hj : j < 8
        · rw [decide_eq_true (by omega : j + 8 * k < 64), Bool.true_and]
        · rw [decide_eq_false hj, Bool.false_and, Bool.false_and]
      rw [toNat_lane, toNat_lane, ← hlane, BitVec.toNat_sub, hdiff, hmod]
    have hbits := borrows_iff (lane t k).toNat (lane t k).isLt (borrow t.toNat k)
      (Nat.lt_succ_of_le (borrow_le _ _))
    have hones : (BitVec.allOnes 64).getLsbD (8 * k + 7) = true := by
      rw [BitVec.getLsbD_allOnes]
      exact decide_eq_true hi
    rw [BitVec.getLsbD_and, BitVec.getLsbD_xor, hones, Bool.xor_true, ← getLsbD_lane _ k (by decide),
      ← getLsbD_lane _ k (by decide), BitVec.getLsbD, BitVec.getLsbD, hsub, hbits, decide_eq_decide,
      borrow, toNat_lane]
    split
    · next h => exact iff_of_true h rfl
    · next h => exact iff_of_false h (by decide)
  · rw [decide_eq_false hplace, Bool.false_and, Bool.false_and]

/-- Marks smeared over their lanes. -/
theorem lane_of_covers {t s : BitVec 64} (h : Covers (zeroMarks t) s 8) {k : Nat} (hk : k < 8) :
    lane s k = laneMask (borrow t.toNat (k + 1) = 1) := by
  refine lane_eq fun j hj => ?_
  rw [getLsbD_laneMask _ hj, Bool.eq_iff_iff, h (8 * k + j)]
  have hmark := getLsbD_zeroMarks t (by omega : 8 * k + 7 < 64)
  rw [decide_eq_true (by omega : (8 * k + 7) % 8 = 7), Bool.true_and,
    (by omega : (8 * k + 7) / 8 = k)] at hmark
  constructor
  · rintro ⟨i, hge, hlt, hbit⟩
    have hi := BitVec.lt_of_getLsbD hbit
    rw [getLsbD_zeroMarks t hi, Bool.and_eq_true, decide_eq_true_eq] at hbit
    -- The one place in reach that can be marked is the lane's own.
    have hplace : i = 8 * k + 7 := by omega
    subst hplace
    rw [← hmark, getLsbD_zeroMarks t hi, Bool.and_eq_true, decide_eq_true_eq]
    exact hbit
  · intro hborrow
    exact ⟨8 * k + 7, by omega, by omega, hmark.trans hborrow⟩

/-- The lanes that borrow are the zero ones exactly if no zero lane is next to a
    one above it. -/
theorem borrow_exact_iff (t n : Nat) :
    (∀ k < n + 1, borrow t (k + 1) = 1 ↔ t / 256 ^ k % 256 = 0) ↔
      ∀ k < n, ¬ (t / 256 ^ k % 256 = 0 ∧ t / 256 ^ (k + 1) % 256 = 1) := by
  have hstep : ∀ k, borrow t (k + 1) = 1 ↔ t / 256 ^ k % 256 < 1 + borrow t k := by
    intro k
    rw [borrow]
    split
    · next h => exact iff_of_true rfl h
    · next h => exact iff_of_false (by decide) h
  constructor
  · rintro h k hk ⟨hzero, hone⟩
    have hborrow := (h k (by omega)).mpr hzero
    have hnext := (h (k + 1) (by omega)).mp ((hstep (k + 1)).mpr (by omega))
    omega
  · intro h k hk
    induction k with
    | zero =>
      rw [hstep 0, borrow]
      omega
    | succ k ih =>
      have ih := ih (by omega)
      have hadjacent := h k (by omega)
      have hle := borrow_le t (k + 1)
      rw [hstep (k + 1)]
      omega

end Crabbit.Lib
