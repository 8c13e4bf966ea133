/-
  Crabbit.Lib.BitMoves

  Bits moved by shifts and masks: groups swapped, bytes put in the other order,
  and fields rotated.
-/

import Crabbit.Lib.Bytes

namespace Crabbit.Lib

variable {w : Nat}

/-! ## Masks -/

/-- All ones shifted down are the ones that are left. -/
theorem shiftRight_ones (n k : Nat) : (2 ^ (n + k) - 1) >>> k = 2 ^ n - 1 := by
  apply Nat.eq_of_testBit_eq
  intro i
  rw [Nat.testBit_shiftRight, Nat.testBit_two_pow_sub_one, Nat.testBit_two_pow_sub_one,
    decide_eq_decide]
  omega

/-! ## Groups -/

/-- The place a bit is swapped with when neighbouring groups of `k` are. -/
def swapPlace (k i : Nat) : Nat := if i / k % 2 = 0 then i + k else i - k

/-- Neighbouring groups are swapped by two shifts and the mask of every other
    group. -/
theorem getLsbD_swapGroups (x m : BitVec w) {k : Nat} (hk : 0 < k)
    (hmask : ∀ i < w, m.getLsbD i = decide (i / k % 2 = 0)) {i : Nat} (hi : i < w) :
    ((x >>> k &&& m) ||| ((x &&& m) <<< k)).getLsbD i = x.getLsbD (swapPlace k i) := by
  have hdown : k ≤ i → (i - k) / k = i / k - 1 ∧ 0 < i / k := by
    intro hki
    have hnext := Nat.add_div_right (i - k) hk
    rw [Nat.sub_add_cancel hki] at hnext
    rw [hnext]
    exact ⟨rfl, Nat.succ_pos _⟩
  rw [BitVec.getLsbD_or, BitVec.getLsbD_and, BitVec.getLsbD_ushiftRight, BitVec.getLsbD_shiftLeft,
    BitVec.getLsbD_and, hmask i hi, hmask (i - k) (by omega), decide_eq_true hi, Bool.true_and,
    swapPlace]
  by_cases heven : i / k % 2 = 0
  · -- The group below is masked out, or there is none.
    have hup :
        (!decide (i < k) && (x.getLsbD (i - k) && decide ((i - k) / k % 2 = 0))) = false := by
      by_cases hki : i < k
      · rw [decide_eq_true hki, Bool.not_true, Bool.false_and]
      · have hodd : ¬ (i - k) / k % 2 = 0 := by
          have := hdown (by omega)
          omega
        rw [decide_eq_false hodd, Bool.and_false, Bool.and_false]
    rw [hup, if_pos heven, decide_eq_true heven, Bool.and_true, Bool.or_false, Nat.add_comm]
  · have hki : k ≤ i := by
      by_contra hlt
      rw [Nat.div_eq_of_lt (by omega)] at heven
      exact heven rfl
    have heven' : (i - k) / k % 2 = 0 := by
      have := hdown hki
      omega
    rw [if_neg heven, decide_eq_false heven, Bool.and_false, Bool.false_or,
      decide_eq_false (by omega : ¬ i < k), decide_eq_true heven', Bool.not_false, Bool.true_and,
      Bool.and_true]

/-- The swaps of bits, pairs and nibbles and then of bytes turn 64 bits around. -/
theorem swapPlace_reverse : ∀ i < 64, swapPlace 1 (swapPlace 2 (swapPlace 4
    (8 * (7 - i / 8) + i % 8))) = 63 - i := by
  decide

/-! ## Bytes -/

/-- A number's bytes in the other order. -/
def swapBytes (x : BitVec w) : BitVec w := BitVec.ofNat w (ofLE (toLE (w / 8) x.toNat).reverse)

theorem testBit_ofLE (bs : List UInt8) (i : Nat) :
    (ofLE bs).testBit i = ((bs[i / 8]?.getD 0).toNat).testBit (i % 8) := by
  induction bs generalizing i with
  | nil =>
    rw [ofLE, Nat.zero_testBit, List.getElem?_nil, Option.getD_none]
    exact (Nat.zero_testBit _).symm
  | cons b bs ih =>
    have hb : b.toNat < 2 ^ 8 := b.toNat_lt
    rw [ofLE, Nat.add_comm, Nat.testBit_two_pow_mul_add (i := 8) _ hb]
    split
    · next hi =>
      rw [Nat.div_eq_of_lt hi, Nat.mod_eq_of_lt hi, List.getElem?_cons_zero, Option.getD_some]
    · next hi =>
      have hdiv : i / 8 = (i - 8) / 8 + 1 := by omega
      have hmod : i % 8 = (i - 8) % 8 := by omega
      rw [ih, hdiv, hmod, List.getElem?_cons_succ]

theorem getElem?_toLE {n j : Nat} (hj : j < n) (x : Nat) :
    (toLE n x)[j]? = some (UInt8.ofNat (x / 256 ^ j)) := by
  induction n generalizing j x with
  | zero => omega
  | succ n ih =>
    rw [toLE]
    cases j with
    | zero => rw [List.getElem?_cons_zero, Nat.pow_zero, Nat.div_one]
    | succ j =>
      rw [List.getElem?_cons_succ, ih (by omega), Nat.pow_succ', Nat.div_div_eq_div_mul]

/-- Each bit goes to the same place of the byte as far from the other end. -/
theorem getLsbD_swapBytes (hw : w % 8 = 0) (x : BitVec w) {i : Nat} (hi : i < w) :
    (swapBytes x).getLsbD i = x.getLsbD (8 * (w / 8 - 1 - i / 8) + i % 8) := by
  have hlane : w / 8 - 1 - i / 8 < w / 8 := by omega
  have hbyte : (toLE (w / 8) x.toNat).reverse[i / 8]? =
      some (UInt8.ofNat (x.toNat / 256 ^ (w / 8 - 1 - i / 8))) := by
    rw [List.getElem?_reverse (by rw [length_toLE]; omega), length_toLE, getElem?_toLE hlane]
  rw [swapBytes, BitVec.getLsbD_ofNat, decide_eq_true hi, Bool.true_and, testBit_ofLE, hbyte,
    Option.getD_some, UInt8.toNat_ofNat', Nat.testBit_mod_two_pow,
    decide_eq_true (Nat.mod_lt i (by decide)), Bool.true_and, show 256 = 2 ^ 8 from rfl,
    ← Nat.pow_mul, Nat.testBit_div_two_pow, Nat.add_comm]
  rfl

/-- The byte of a lane put in the lane as far from the other end. -/
def moveByte (x : BitVec w) (lanes : Nat) (result : BitVec w) (lane : Nat) : BitVec w :=
  result ||| (((x >>> (lane * 8)) &&& 255#w) <<< ((lanes - 1 - lane) * 8))

/-- The bit that `moveByte` puts at a place, if it is in the lane's target. -/
theorem getLsbD_moveByte (hw : 8 ≤ w) (x result : BitVec w) (lanes : Nat) {lane i : Nat}
    (hlane : lane < lanes) (hi : i < w) :
    (moveByte x lanes result lane).getLsbD i = (result.getLsbD i ||
      (decide (i / 8 = lanes - 1 - lane) && x.getLsbD (8 * lane + i % 8))) := by
  have hmask : ∀ j, (255#w).getLsbD j = decide (j < 8) := by
    intro j
    have hpow : 255 < 2 ^ w := lt_of_lt_of_le (by decide : 255 < 2 ^ 8)
      (Nat.pow_le_pow_right (by decide) hw)
    rw [BitVec.getLsbD, BitVec.toNat_ofNat, Nat.mod_eq_of_lt hpow]
    exact Nat.testBit_two_pow_sub_one 8 j
  rw [moveByte, BitVec.getLsbD_or, BitVec.getLsbD_shiftLeft, BitVec.getLsbD_and,
    BitVec.getLsbD_ushiftRight, hmask, decide_eq_true hi, Bool.true_and]
  congr 1
  by_cases hplace : i / 8 = lanes - 1 - lane
  · have hoffset : i - (lanes - 1 - lane) * 8 = i % 8 := by omega
    rw [hoffset, decide_eq_false (by omega), decide_eq_true (by omega), decide_eq_true hplace,
      Bool.not_false, Bool.true_and, Bool.and_true, Bool.true_and, Nat.mul_comm]
  · rw [decide_eq_false hplace, Bool.false_and]
    by_cases hbelow : i < (lanes - 1 - lane) * 8
    · rw [decide_eq_true hbelow, Bool.not_true, Bool.false_and]
    · rw [decide_eq_false (by omega : ¬ i - (lanes - 1 - lane) * 8 < 8), Bool.and_false,
        Bool.and_false]

/-- All lanes moved: the bytes of the `lanes` low ones in the other order. -/
theorem getLsbD_foldl_moveByte (hw : 8 ≤ w) (x : BitVec w) {lanes n : Nat} (hn : n ≤ lanes)
    {i : Nat} (hi : i < w) :
    ((List.range n).foldl (moveByte x lanes) 0#w).getLsbD i =
      (decide (i / 8 < lanes ∧ lanes - n ≤ i / 8) &&
        x.getLsbD (8 * (lanes - 1 - i / 8) + i % 8)) := by
  induction n with
  | zero =>
    rw [List.range_zero, List.foldl_nil, BitVec.getLsbD_zero,
      decide_eq_false (by omega), Bool.false_and]
  | succ n ih =>
    rw [List.range_succ, List.foldl_append, List.foldl_cons, List.foldl_nil,
      getLsbD_moveByte hw _ _ _ (by omega) hi, ih (by omega)]
    by_cases hplace : i / 8 = lanes - 1 - n
    · have hlane : lanes - 1 - i / 8 = n := by omega
      rw [decide_eq_true hplace, hlane, decide_eq_false (by omega), decide_eq_true (by omega),
        Bool.false_and, Bool.false_or]
    · rw [decide_eq_false hplace, Bool.false_and, Bool.or_false]
      congr 1
      rw [decide_eq_decide]
      omega

/-! ## Rotations -/

section Rotations

variable {v : Nat}

/-- A field rotated within a word that holds it: the left shift brings the low
    part up, the right shift the high part down. -/
theorem getLsbD_rotateLeft_field {x : BitVec v} (hv : v ≤ w) {y : BitVec w}
    (hlow : ∀ i < v, y.getLsbD i = x.getLsbD i) (hhigh : ∀ i, v ≤ i → y.getLsbD i = false)
    (r : Nat) {i : Nat} (hi : i < v) :
    ((y <<< (r % v)) ||| (y >>> ((v - r % v) % v))).getLsbD i = (x.rotateLeft r).getLsbD i := by
  have hr : r % v < v := Nat.mod_lt r (by omega)
  rw [BitVec.getLsbD_or, BitVec.getLsbD_shiftLeft, BitVec.getLsbD_ushiftRight,
    BitVec.getLsbD_rotateLeft, decide_eq_true (by omega : i < w), decide_eq_true hi, Bool.true_and,
    Bool.true_and]
  generalize r % v = k at *
  by_cases hzero : k = 0
  · subst hzero
    rw [Nat.sub_zero i, Nat.sub_zero v, Nat.mod_self, Nat.zero_add,
      decide_eq_false (Nat.not_lt_zero i), Bool.not_false, Bool.true_and, Bool.or_self, cond_false,
      hlow i hi]
  · rw [Nat.mod_eq_of_lt (by omega : v - k < v)]
    by_cases hik : i < k
    · rw [decide_eq_true hik, Bool.not_true, Bool.false_and, Bool.false_or, cond_true,
        hlow _ (by omega)]
    · rw [decide_eq_false hik, Bool.not_false, Bool.true_and, hhigh (v - k + i) (by omega),
        Bool.or_false, cond_false, hlow _ (by omega)]

theorem getLsbD_rotateRight_field {x : BitVec v} (hv : v ≤ w) {y : BitVec w}
    (hlow : ∀ i < v, y.getLsbD i = x.getLsbD i) (hhigh : ∀ i, v ≤ i → y.getLsbD i = false)
    (r : Nat) {i : Nat} (hi : i < v) :
    ((y <<< ((v - r % v) % v)) ||| (y >>> (r % v))).getLsbD i = (x.rotateRight r).getLsbD i := by
  have hr : r % v < v := Nat.mod_lt r (by omega)
  rw [BitVec.getLsbD_or, BitVec.getLsbD_shiftLeft, BitVec.getLsbD_ushiftRight,
    BitVec.getLsbD_rotateRight, decide_eq_true (by omega : i < w), decide_eq_true hi,
    Bool.true_and, Bool.true_and]
  generalize r % v = k at *
  by_cases hzero : k = 0
  · subst hzero
    rw [Nat.sub_zero, Nat.mod_self, Nat.zero_add, decide_eq_false (Nat.not_lt_zero i),
      decide_eq_true hi, Bool.not_false, Bool.true_and, Nat.sub_zero, Bool.or_self, cond_true]
    exact hlow i hi
  · rw [Nat.mod_eq_of_lt (by omega : v - k < v)]
    by_cases hik : i < v - k
    · rw [decide_eq_true hik, Bool.not_true, Bool.false_and, Bool.false_or, cond_true,
        hlow _ (by omega)]
    · rw [decide_eq_false hik, Bool.not_false, Bool.true_and, hhigh (k + i) (by omega),
        Bool.or_false, cond_false, hlow _ (by omega)]

end Rotations

end Crabbit.Lib
