/-
  Crabbit.Lib.BitCounts

  Ones counted: one by one and in byte lanes, below the lowest set bit and above
  the highest.
-/

import Mathlib.Data.Nat.Bitwise
import Mathlib.Tactic.Ring

namespace Crabbit.Lib

/-! ## Ones -/

/-- The ones among the `n` low bits. -/
def bitCount : Nat → Nat → Nat
  | 0, _ => 0
  | n + 1, x => x % 2 + bitCount n (x / 2)

theorem bitCount_add (m n x : Nat) :
    bitCount (m + n) x = bitCount m x + bitCount n (x / 2 ^ m) := by
  induction m generalizing x with
  | zero => rw [Nat.zero_add, bitCount, Nat.zero_add, Nat.pow_zero, Nat.div_one]
  | succ m ih =>
    rw [Nat.succ_add, bitCount, ih, bitCount, Nat.div_div_eq_div_mul, ← Nat.pow_succ',
      Nat.add_assoc]

theorem bitCount_mod (n x : Nat) : bitCount n (x % 2 ^ n) = bitCount n x := by
  induction n generalizing x with
  | zero => rfl
  | succ n ih =>
    have hlow : x % 2 ^ (n + 1) % 2 = x % 2 := by
      rw [Nat.pow_succ']
      exact Nat.mod_mul_right_mod x 2 _
    have hhigh : x % 2 ^ (n + 1) / 2 = x / 2 % 2 ^ n := by
      rw [Nat.pow_succ']
      exact Nat.mod_mul_right_div_self x 2 _
    rw [bitCount, bitCount, hlow, hhigh, ih]

theorem bitCount_zero (n : Nat) : bitCount n 0 = 0 := by
  induction n with
  | zero => rfl
  | succ n ih => rw [bitCount, Nat.zero_div, ih]

theorem bitCount_ones (n : Nat) : bitCount n (2 ^ n - 1) = n := by
  induction n with
  | zero => rfl
  | succ n ih =>
    have hpos := Nat.two_pow_pos n
    have hlow : (2 ^ (n + 1) - 1) % 2 = 1 := by
      rw [Nat.pow_succ]
      omega
    have hhigh : (2 ^ (n + 1) - 1) / 2 = 2 ^ n - 1 := by
      rw [Nat.pow_succ]
      omega
    rw [bitCount, hlow, hhigh, ih, Nat.add_comm]

/-- The `k` lowest bits, counted. -/
theorem bitCount_low {n k : Nat} (h : k ≤ n) : bitCount n (2 ^ k - 1) = k := by
  have hhigh : (2 ^ k - 1) / 2 ^ k = 0 :=
    Nat.div_eq_of_lt (Nat.sub_one_lt_of_lt (Nat.two_pow_pos k))
  rw [← Nat.add_sub_of_le h, bitCount_add, bitCount_ones, hhigh, bitCount_zero, Nat.add_zero]

theorem bitCount_le (n x : Nat) : bitCount n x ≤ n := by
  induction n generalizing x with
  | zero => exact Nat.le_refl 0
  | succ n ih =>
    have hrest := ih (x / 2)
    rw [bitCount]
    omega

theorem bitCount_of_lt {n k x : Nat} (h : k ≤ n) (hx : x < 2 ^ k) :
    bitCount n x = bitCount k x := by
  rw [← Nat.add_sub_of_le h, bitCount_add, Nat.div_eq_of_lt hx, bitCount_zero, Nat.add_zero]

/-- The ones added above a number's bits are counted with them. -/
theorem bitCount_add_high {n k x : Nat} (h : k ≤ n) (hx : x < 2 ^ k) :
    bitCount n (x + (2 ^ n - 2 ^ k)) = bitCount k x + (n - k) := by
  have hsplit : 2 ^ n - 2 ^ k = 2 ^ k * (2 ^ (n - k) - 1) := by
    rw [Nat.mul_sub, Nat.mul_one, ← Nat.pow_add, Nat.add_sub_of_le h]
  have hadd := bitCount_add k (n - k) (x + (2 ^ n - 2 ^ k))
  rw [Nat.add_sub_of_le h] at hadd
  rw [hadd, hsplit, Nat.add_mul_div_left _ _ (Nat.two_pow_pos k), Nat.div_eq_of_lt hx,
    Nat.zero_add, bitCount_ones, ← bitCount_mod, Nat.add_mul_mod_self_left, bitCount_mod]

/-- The `n - k` highest of `n` bits, counted. -/
theorem bitCount_high {n k : Nat} (h : k ≤ n) : bitCount n (2 ^ n - 2 ^ k) = n - k := by
  have hadd := bitCount_add_high h (Nat.two_pow_pos k)
  rwa [Nat.zero_add, bitCount_zero, Nat.zero_add] at hadd

/-- The core library's count. -/
theorem toNat_cpop_eq {w : Nat} (x : BitVec w) : x.cpop.toNat = bitCount w x.toNat := by
  have hrec : ∀ n, x.cpopNatRec n 0 = bitCount n x.toNat := by
    intro n
    induction n with
    | zero => rfl
    | succ n ih =>
      have hbit : (x.getLsbD n).toNat = bitCount 1 (x.toNat / 2 ^ n) := by
        rw [BitVec.getLsbD, Nat.toNat_testBit]
        rfl
      rw [BitVec.cpopNatRec_succ, BitVec.cpopNatRec_eq, ih, bitCount_add, hbit, Nat.zero_add]
  rw [BitVec.toNat_cpop, hrec]

/-! ## Byte lanes -/

/-- A byte in each of `n` lanes. -/
def spread : Nat → Nat → Nat
  | 0, _ => 0
  | n + 1, m => m + 256 * spread n m

theorem and_lane {b m : Nat} (hb : b < 256) (hm : m < 256) (y z : Nat) :
    (b + 256 * y) &&& (m + 256 * z) = (b &&& m) + 256 * (y &&& z) := by
  have hand : b &&& m < 256 := lt_of_le_of_lt Nat.and_le_left hb
  apply Nat.eq_of_testBit_eq
  intro i
  rw [Nat.testBit_and, Nat.add_comm b, Nat.add_comm m, Nat.add_comm (b &&& m),
    Nat.testBit_two_pow_mul_add (i := 8) y hb, Nat.testBit_two_pow_mul_add (i := 8) z hm,
    Nat.testBit_two_pow_mul_add (i := 8) _ hand]
  split
  · rw [Nat.testBit_and]
  · rw [Nat.testBit_and]

/-- A masked shift stays within its lane. -/
theorem shiftRight_and_lane {b m k : Nat} (hb : b < 256) (hk : k ≤ 8) (hm : m < 2 ^ (8 - k))
    (y z : Nat) :
    ((b + 256 * y) >>> k) &&& (m + 256 * z) = (b >>> k &&& m) + 256 * (y >>> k &&& z) := by
  have hpow : 2 ^ k * 2 ^ (8 - k) = 256 := by
    rw [← Nat.pow_add, Nat.add_sub_of_le hk]
  have hpos := Nat.two_pow_pos k
  have hlow : b / 2 ^ k < 2 ^ (8 - k) := Nat.div_lt_of_lt_mul (by rw [hpow]; exact hb)
  have hle : 2 ^ (8 - k) ≤ 256 := by
    rw [← hpow]
    exact Nat.le_mul_of_pos_left _ hpos
  -- The lane takes the low bits of the next one above its own.
  have hsplit : (b + 256 * y) / 2 ^ k =
      (b / 2 ^ k + 2 ^ (8 - k) * (y % 2 ^ k)) + 256 * (y / 2 ^ k) := by
    have hy := Nat.div_add_mod y (2 ^ k)
    rw [← hpow, Nat.mul_assoc, Nat.add_mul_div_left _ _ hpos]
    generalize 2 ^ (8 - k) = high at *
    generalize 2 ^ k = low at *
    nth_rewrite 1 [← hy]
    ring
  have hlane : b / 2 ^ k + 2 ^ (8 - k) * (y % 2 ^ k) < 256 := by
    have hmod := Nat.mul_le_mul_left (2 ^ (8 - k)) (Nat.le_sub_one_of_lt (Nat.mod_lt y hpos))
    rw [Nat.mul_sub, Nat.mul_comm _ (2 ^ k), hpow] at hmod
    omega
  rw [Nat.shiftRight_eq_div_pow, hsplit, and_lane hlane (by omega), Nat.shiftRight_eq_div_pow,
    Nat.shiftRight_eq_div_pow]
  congr 1
  -- The mask has none of the bits of the next lane.
  apply Nat.eq_of_testBit_eq
  intro i
  rw [Nat.testBit_and, Nat.testBit_and, Nat.add_comm, Nat.testBit_two_pow_mul_add _ hlow]
  split
  · rfl
  · next hi =>
    have hnone : m.testBit i = false :=
      Nat.testBit_lt_two_pow (lt_of_lt_of_le hm (Nat.pow_le_pow_right (by omega) (by omega)))
    rw [hnone, Bool.and_false, Bool.and_false]

/-- Each pair of bits replaced by its count. -/
def countPairs (n x : Nat) : Nat := x - (x >>> 1 &&& spread n 0x55)

/-- Each two pairs added. -/
def countNibbles (n x : Nat) : Nat := (x &&& spread n 0x33) + (x >>> 2 &&& spread n 0x33)

/-- Each two nibbles added. -/
def countBytes (n x : Nat) : Nat := (x + x >>> 4) &&& spread n 0x0f

theorem countPairs_lane {b : Nat} (hb : b < 256) (n y : Nat) :
    countPairs (n + 1) (b + 256 * y) = countPairs 1 b + 256 * countPairs n y := by
  have hlow : b >>> 1 &&& 0x55 ≤ b :=
    le_trans Nat.and_le_left (by rw [Nat.shiftRight_eq_div_pow]; exact Nat.div_le_self _ _)
  have hhigh : y >>> 1 &&& spread n 0x55 ≤ y :=
    le_trans Nat.and_le_left (by rw [Nat.shiftRight_eq_div_pow]; exact Nat.div_le_self _ _)
  rw [countPairs, spread, shiftRight_and_lane hb (by omega) (by decide)]
  show _ = b - (b >>> 1 &&& 0x55) + 256 * (y - (y >>> 1 &&& spread n 0x55))
  omega

theorem countNibbles_lane {b : Nat} (hb : b < 256) (n y : Nat) :
    countNibbles (n + 1) (b + 256 * y) = countNibbles 1 b + 256 * countNibbles n y := by
  rw [countNibbles, spread, shiftRight_and_lane hb (by omega) (by decide),
    and_lane hb (by decide)]
  show _ = (b &&& 0x33) + (b >>> 2 &&& 0x33) +
    256 * ((y &&& spread n 0x33) + (y >>> 2 &&& spread n 0x33))
  omega

/-- The lanes of the nibbles' counts. -/
theorem nibbleCounts_lane {b : Nat} (hb : b < 256) (n y : Nat) :
    countNibbles (n + 1) (countPairs (n + 1) (b + 256 * y)) =
      countNibbles 1 (countPairs 1 b) + 256 * countNibbles n (countPairs n y) := by
  have hpairs : ∀ c < 256, countPairs 1 c < 256 := fun c hc => lt_of_le_of_lt (Nat.sub_le _ _) hc
  rw [countPairs_lane hb, countNibbles_lane (hpairs b hb)]

set_option maxRecDepth 8000 in
/-- No count of a nibble exceeds four, and the two of a byte are the count of the
    byte. -/
theorem nibbleCounts_byte : ∀ b < 256, countNibbles 1 (countPairs 1 b) % 16 ≤ 4 ∧
    countNibbles 1 (countPairs 1 b) / 16 ≤ 4 ∧
    countBytes 1 (countNibbles 1 (countPairs 1 b)) = bitCount 8 b := by
  decide

theorem nibbleCounts_mod_le (n x : Nat) : countNibbles n (countPairs n x) % 16 ≤ 4 := by
  cases n with
  | zero =>
    have hzero : countNibbles 0 (countPairs 0 x) = 0 := by
      rw [countNibbles, spread, Nat.and_zero, Nat.and_zero]
    rw [hzero]
    decide
  | succ n =>
    have hb := Nat.mod_lt x (by decide : 0 < 256)
    have hlow := (nibbleCounts_byte _ hb).1
    rw [← Nat.mod_add_div x 256, nibbleCounts_lane hb]
    omega

/-- The lanes of the bytes' counts. -/
theorem byteCounts_lane (n x : Nat) :
    countBytes (n + 1) (countNibbles (n + 1) (countPairs (n + 1) x)) =
      bitCount 8 x + 256 * countBytes n (countNibbles n (countPairs n (x / 256))) := by
  have hb := Nat.mod_lt x (by decide : 0 < 256)
  have hnext := nibbleCounts_mod_le n (x / 256)
  obtain ⟨hlow, hhigh, hcount⟩ := nibbleCounts_byte _ hb
  nth_rewrite 1 [← Nat.mod_add_div x 256]
  rw [nibbleCounts_lane hb, ← bitCount_mod 8 x, show 2 ^ 8 = 256 from rfl, ← hcount]
  generalize countNibbles 1 (countPairs 1 (x % 256)) = byte at *
  generalize countNibbles n (countPairs n (x / 256)) = rest at *
  -- The low nibble of the next lane is added to the high one of this.
  have hsum : byte + 256 * rest + (byte + 256 * rest) >>> 4 =
      (byte + byte / 16 + 16 * (rest % 16)) + 256 * (rest + rest >>> 4) := by
    rw [Nat.shiftRight_eq_div_pow, Nat.shiftRight_eq_div_pow]
    omega
  have hlane : ∀ low, low &&& 0x0f = low % 16 := fun low => Nat.and_two_pow_sub_one_eq_mod low 4
  rw [countBytes, spread, hsum, and_lane (by omega) (by decide), hlane, countBytes, countBytes]
  show _ = (byte + byte >>> 4 &&& 0x0f) + 256 * (rest + rest >>> 4 &&& spread n 0x0f)
  rw [hlane, Nat.shiftRight_eq_div_pow]
  omega

/-- The top lane of a product with ones is the sum of the lanes, when no sum
    leaves its lane. -/
theorem mul_spread_top {c0 c1 c2 c3 c4 c5 c6 c7 : Nat}
    (h : c0 + c1 + c2 + c3 + c4 + c5 + c6 + c7 < 256) :
    (c0 + 256 * (c1 + 256 * (c2 + 256 * (c3 + 256 * (c4 + 256 * (c5 + 256 * (c6 + 256 * c7))))))) *
      0x0101010101010101 % 2 ^ 64 / 2 ^ 56 = c0 + c1 + c2 + c3 + c4 + c5 + c6 + c7 := by
  have hproduct : (c0 + 256 * (c1 + 256 * (c2 + 256 * (c3 + 256 * (c4 + 256 * (c5 + 256 *
        (c6 + 256 * c7))))))) * 0x0101010101010101 =
      (c0 + 256 * (c0 + c1) + 256 ^ 2 * (c0 + c1 + c2) + 256 ^ 3 * (c0 + c1 + c2 + c3) +
        256 ^ 4 * (c0 + c1 + c2 + c3 + c4) + 256 ^ 5 * (c0 + c1 + c2 + c3 + c4 + c5) +
        256 ^ 6 * (c0 + c1 + c2 + c3 + c4 + c5 + c6)) +
      2 ^ 56 * (c0 + c1 + c2 + c3 + c4 + c5 + c6 + c7 + 256 *
        (c1 + c2 + c3 + c4 + c5 + c6 + c7 + 256 * (c2 + c3 + c4 + c5 + c6 + c7) +
          256 ^ 2 * (c3 + c4 + c5 + c6 + c7) + 256 ^ 3 * (c4 + c5 + c6 + c7) +
          256 ^ 4 * (c5 + c6 + c7) + 256 ^ 5 * (c6 + c7) + 256 ^ 6 * c7)) := by ring
  have hlow : c0 + 256 * (c0 + c1) + 256 ^ 2 * (c0 + c1 + c2) + 256 ^ 3 * (c0 + c1 + c2 + c3) +
      256 ^ 4 * (c0 + c1 + c2 + c3 + c4) + 256 ^ 5 * (c0 + c1 + c2 + c3 + c4 + c5) +
      256 ^ 6 * (c0 + c1 + c2 + c3 + c4 + c5 + c6) < 2 ^ 56 := by omega
  have htop : ∀ low sum high, low < 2 ^ 56 → sum < 256 →
      (low + 2 ^ 56 * (sum + 256 * high)) % 2 ^ 64 / 2 ^ 56 = sum := by
    intro low sum high hlow hsum
    omega
  rw [hproduct]
  exact htop _ _ _ hlow h

/-- The bytes' counts summed by a product. -/
theorem byteCounts_sum (x : Nat) :
    countBytes 8 (countNibbles 8 (countPairs 8 x)) * spread 8 0x01 % 2 ^ 64 / 2 ^ 56 =
      bitCount 64 x := by
  have hones : spread 8 0x01 = 0x0101010101010101 := rfl
  have hstep : ∀ n y, bitCount (8 + n) y = bitCount 8 y + bitCount n (y / 256) := bitCount_add 8
  have hlanes : countBytes 0 (countNibbles 0 (countPairs 0 (x / 256 / 256 / 256 / 256 / 256 / 256 /
      256 / 256))) = 0 := by rw [countBytes, spread, Nat.and_zero]
  have hsum : bitCount 64 x = bitCount 8 x + bitCount 8 (x / 256) + bitCount 8 (x / 256 / 256) +
      bitCount 8 (x / 256 / 256 / 256) + bitCount 8 (x / 256 / 256 / 256 / 256) +
      bitCount 8 (x / 256 / 256 / 256 / 256 / 256) +
      bitCount 8 (x / 256 / 256 / 256 / 256 / 256 / 256) +
      bitCount 8 (x / 256 / 256 / 256 / 256 / 256 / 256 / 256) := by
    rw [show 64 = 8 + (8 + (8 + (8 + (8 + (8 + (8 + 8)))))) from rfl, hstep, hstep, hstep, hstep,
      hstep, hstep, hstep]
    simp only [Nat.add_assoc]
  have hle := bitCount_le 64 x
  rw [byteCounts_lane, byteCounts_lane, byteCounts_lane, byteCounts_lane, byteCounts_lane,
    byteCounts_lane, byteCounts_lane, byteCounts_lane, hlanes, hones, Nat.mul_zero, Nat.add_zero,
    mul_spread_top (by rw [← hsum]; omega), hsum]

section Words

variable {w : Nat}

/-! ## The lowest set bit -/

theorem toNat_ctz_unique {x : BitVec w} {c : Nat} (hbit : x.getLsbD c = true)
    (hbelow : ∀ i < c, x.getLsbD i = false) : x.ctz.toNat = c := by
  have hne : x ≠ 0#w := by
    rintro rfl
    rw [BitVec.getLsbD_zero] at hbit
    cases hbit
  have htrue := BitVec.getLsbD_true_ctz_of_ne_zero hne
  rcases Nat.lt_trichotomy x.ctz.toNat c with h | h | h
  · rw [hbelow _ h] at htrue
    cases htrue
  · exact h
  · rw [BitVec.getLsbD_false_of_lt_ctz h] at hbit
    cases hbit

/-- A number and its negation share the lowest set bit. -/
theorem and_neg_eq_twoPow {x : BitVec w} (hne : x ≠ 0#w) :
    x &&& -x = BitVec.twoPow w x.ctz.toNat := by
  have hbit := BitVec.getLsbD_true_ctz_of_ne_zero hne
  have hbelow : ∀ i < x.ctz.toNat, x.getLsbD i = false :=
    fun i hi => BitVec.getLsbD_false_of_lt_ctz hi
  apply BitVec.eq_of_getLsbD_eq
  intro i hi
  rw [BitVec.getLsbD_and, BitVec.getLsbD_neg, BitVec.getLsbD_twoPow,
    decide_eq_true hi, decide_eq_true (BitVec.lt_of_getLsbD hbit), Bool.true_and, Bool.true_and]
  rcases Nat.lt_trichotomy i x.ctz.toNat with h | h | h
  · rw [hbelow i h, Bool.false_and, decide_eq_false (by omega)]
  · have hnone : ¬ ∃ j < i, x.getLsbD j = true := by
      rintro ⟨j, hj, htrue⟩
      rw [hbelow j (by omega)] at htrue
      cases htrue
    rw [decide_eq_false hnone, Bool.xor_false, Bool.and_self, decide_eq_true h.symm, h, hbit]
  · rw [decide_eq_true (⟨x.ctz.toNat, h, hbit⟩ : ∃ j < i, x.getLsbD j = true), Bool.xor_true,
      Bool.and_not_self, decide_eq_false (by omega)]

theorem toNat_clz_zero (w : Nat) : (0#w).clz.toNat = w := by
  rw [BitVec.clz_eq_iff_eq_zero.mpr rfl]
  exact Nat.mod_eq_of_lt Nat.lt_two_pow_self

theorem toNat_ctz_zero (w : Nat) : (0#w).ctz.toNat = w := by
  rw [BitVec.ctz_eq_reverse_clz, BitVec.reverse_eq_zero_iff.mpr rfl, toNat_clz_zero]

theorem toNat_ctz_le (x : BitVec w) : x.ctz.toNat ≤ w := by
  by_cases hx : x = 0#w
  · rw [hx, toNat_ctz_zero]
  · exact Nat.le_of_lt (BitVec.lt_of_getLsbD (BitVec.getLsbD_true_ctz_of_ne_zero hx))

/-- The ones below the lowest set bit. -/
theorem toNat_and_neg_sub_one (x : BitVec w) :
    ((x &&& -x) - 1#w).toNat = 2 ^ x.ctz.toNat - 1 := by
  by_cases hx : x = 0#w
  · rw [hx, toNat_ctz_zero, BitVec.zero_and, BitVec.zero_sub, BitVec.neg_one_eq_allOnes,
      BitVec.toNat_allOnes]
  · have hlt := BitVec.lt_of_getLsbD (BitVec.getLsbD_true_ctz_of_ne_zero hx)
    have hpos := Nat.two_pow_pos x.ctz.toNat
    have hpow : 2 ^ x.ctz.toNat < 2 ^ w := (Nat.pow_lt_pow_iff_right (by decide)).mpr hlt
    have hone : (1#w).toNat = 1 := Nat.mod_eq_of_lt (by omega)
    have htwo : (BitVec.twoPow w x.ctz.toNat).toNat = 2 ^ x.ctz.toNat :=
      BitVec.toNat_twoPow_of_lt hlt
    rw [and_neg_eq_twoPow hx, BitVec.toNat_sub_of_le, htwo, hone]
    rw [BitVec.le_def, htwo, hone]
    exact hpos

/-- Of the low bits of a number, no more are trailing zeros than there are. -/
theorem toNat_ctz_setWidth {v : Nat} (hv : v ≤ w) (x : BitVec w) :
    (x.setWidth v).ctz.toNat = min x.ctz.toNat v := by
  have hbelow : ∀ i < x.ctz.toNat, x.getLsbD i = false :=
    fun i hi => BitVec.getLsbD_false_of_lt_ctz hi
  by_cases hlt : x.ctz.toNat < v
  · have hne : x ≠ 0#w := by
      rintro rfl
      rw [toNat_ctz_zero] at hlt
      omega
    rw [Nat.min_eq_left hlt.le]
    apply toNat_ctz_unique
    · rw [BitVec.getLsbD_setWidth, decide_eq_true hlt, Bool.true_and,
        BitVec.getLsbD_true_ctz_of_ne_zero hne]
    · intro i hi
      rw [BitVec.getLsbD_setWidth, hbelow i hi, Bool.and_false]
  · have hzero : x.setWidth v = 0#v := by
      apply BitVec.eq_of_getLsbD_eq
      intro i hi
      rw [BitVec.getLsbD_setWidth, hbelow i (by omega), Bool.and_false, BitVec.getLsbD_zero]
    rw [hzero, toNat_ctz_zero, Nat.min_eq_right (by omega)]

/-- The trailing zeros of a word of two halves. -/
theorem toNat_ctz_append {u v : Nat} (hi : BitVec u) (lo : BitVec v) :
    (hi ++ lo).ctz.toNat = lo.ctz.toNat + if lo = 0#v then hi.ctz.toNat else 0 := by
  split
  · next hlo =>
    subst hlo
    rw [toNat_ctz_zero]
    by_cases hhi : hi = 0#u
    · rw [hhi, BitVec.zero_append_zero, toNat_ctz_zero, toNat_ctz_zero, Nat.add_comm]
    · apply toNat_ctz_unique
      · rw [BitVec.getLsbD_append, if_neg (by omega), Nat.add_sub_cancel_left,
          BitVec.getLsbD_true_ctz_of_ne_zero hhi]
      · intro i hlt
        rw [BitVec.getLsbD_append]
        split
        · exact BitVec.getLsbD_zero
        · exact BitVec.getLsbD_false_of_lt_ctz (by omega)
  · next hlo =>
    have hbit := BitVec.getLsbD_true_ctz_of_ne_zero hlo
    have hlt := BitVec.lt_of_getLsbD hbit
    apply toNat_ctz_unique
    · rw [BitVec.getLsbD_append, if_pos (by omega), Nat.add_zero, hbit]
    · intro i hi
      rw [BitVec.getLsbD_append, if_pos (by omega), BitVec.getLsbD_false_of_lt_ctz (by omega)]

/-! ## The highest set bit -/

theorem toNat_clz_unique {x : BitVec w} {c : Nat} (hc : c < w)
    (hge : 2 ^ (w - 1 - c) ≤ x.toNat) (hlt : x.toNat < 2 ^ (w - c)) : x.clz.toNat = c := by
  have hne : x ≠ 0#w := by
    rintro rfl
    have hpos := Nat.two_pow_pos (w - 1 - c)
    rw [BitVec.toNat_zero] at hge
    omega
  have hclzGe := BitVec.two_pow_sub_clz_le_toNat_of_ne_zero (by omega) hne
  have hclzLt := @BitVec.toNat_lt_two_pow_sub_clz w x
  have hbelow : w - 1 - x.clz.toNat < w - c :=
    (Nat.pow_lt_pow_iff_right (by decide)).mp (lt_of_le_of_lt hclzGe hlt)
  have habove : w - 1 - c < w - x.clz.toNat :=
    (Nat.pow_lt_pow_iff_right (by decide)).mp (lt_of_le_of_lt hge hclzLt)
  omega

theorem toNat_clz_le (x : BitVec w) : x.clz.toNat ≤ w :=
  le_trans (BitVec.le_def.mp BitVec.clz_le) (Nat.mod_le _ _)

theorem toNat_clz_lt {x : BitVec w} (hx : x ≠ 0#w) : x.clz.toNat < w := by
  have hle := toNat_clz_le x
  have hne : x.clz.toNat ≠ w := by
    intro h
    apply hx
    rw [← BitVec.clz_eq_iff_eq_zero, ← BitVec.toNat_inj, h]
    exact (Nat.mod_eq_of_lt Nat.lt_two_pow_self).symm
  omega

/-- The leading zeros of a word of two halves. -/
theorem toNat_clz_append {u v : Nat} (hi : BitVec u) (lo : BitVec v) :
    (hi ++ lo).clz.toNat = hi.clz.toNat + if hi = 0#u then lo.clz.toNat else 0 := by
  have hword : (hi ++ lo).toNat = lo.toNat + 2 ^ v * hi.toNat := by
    rw [BitVec.toNat_append, ← Nat.shiftLeft_add_eq_or_of_lt lo.isLt, Nat.shiftLeft_eq,
      Nat.add_comm, Nat.mul_comm]
  split
  · next hhi =>
    subst hhi
    rw [BitVec.toNat_zero, Nat.mul_zero, Nat.add_zero] at hword
    rw [toNat_clz_zero]
    by_cases hlo : lo = 0#v
    · rw [hlo, BitVec.zero_append_zero, toNat_clz_zero, toNat_clz_zero]
    · have hclz := toNat_clz_lt hlo
      have hge := BitVec.two_pow_sub_clz_le_toNat_of_ne_zero (by omega) hlo
      have hbelow := @BitVec.toNat_lt_two_pow_sub_clz v lo
      apply toNat_clz_unique (by omega)
      · rwa [hword, show u + v - 1 - (u + lo.clz.toNat) = v - 1 - lo.clz.toNat by omega]
      · rwa [hword, show u + v - (u + lo.clz.toNat) = v - lo.clz.toNat by omega]
  · next hhi =>
    have hclz := toNat_clz_lt hhi
    have hge := BitVec.two_pow_sub_clz_le_toNat_of_ne_zero (by omega) hhi
    have hbelow := @BitVec.toNat_lt_two_pow_sub_clz u hi
    have hlo := lo.isLt
    apply toNat_clz_unique (by omega)
    · rw [hword, Nat.add_zero, show u + v - 1 - hi.clz.toNat = v + (u - 1 - hi.clz.toNat) by omega,
        Nat.pow_add]
      exact le_trans (Nat.mul_le_mul_left _ hge) (Nat.le_add_left _ _)
    · rw [hword, Nat.add_zero, show u + v - hi.clz.toNat = v + (u - hi.clz.toNat) by omega,
        Nat.pow_add]
      have hnext := Nat.mul_le_mul_left (2 ^ v) (Nat.succ_le_of_lt hbelow)
      rw [Nat.mul_succ] at hnext
      omega

/-- The bits of `y` say whether one of the `n` bits of `x` from their place on is
    set. -/
def Covers (x y : BitVec w) (n : Nat) : Prop :=
  ∀ i, y.getLsbD i = true ↔ ∃ j, i ≤ j ∧ j < i + n ∧ x.getLsbD j = true

theorem Covers.self (x : BitVec w) : Covers x x 1 := by
  intro i
  constructor
  · intro h
    exact ⟨i, Nat.le_refl i, Nat.lt_succ_self i, h⟩
  · rintro ⟨j, hge, hlt, h⟩
    obtain rfl : j = i := by omega
    exact h

/-- A shift by the reach doubles it. -/
theorem Covers.step {x y : BitVec w} {n : Nat} (h : Covers x y n) :
    Covers x (y ||| y >>> n) (n + n) := by
  intro i
  rw [BitVec.getLsbD_or, BitVec.getLsbD_ushiftRight, Bool.or_eq_true, h i, h (n + i)]
  constructor
  · rintro (⟨j, hge, hlt, hbit⟩ | ⟨j, hge, hlt, hbit⟩)
    · exact ⟨j, hge, by omega, hbit⟩
    · exact ⟨j, by omega, by omega, hbit⟩
  · rintro ⟨j, hge, hlt, hbit⟩
    by_cases hj : j < i + n
    · exact Or.inl ⟨j, hge, hj, hbit⟩
    · exact Or.inr ⟨j, by omega, by omega, hbit⟩

/-- With the reach of the word, the ones go up to the highest set bit. -/
theorem Covers.toNat_eq {x y : BitVec w} {n k : Nat} (h : Covers x y n) (hn : w ≤ n)
    (hlt : x.toNat < 2 ^ k) (hge : 0 < k → 2 ^ (k - 1) ≤ x.toNat) : y.toNat = 2 ^ k - 1 := by
  apply Nat.eq_of_testBit_eq
  intro i
  rw [Nat.testBit_two_pow_sub_one, Bool.eq_iff_iff, decide_eq_true_iff]
  refine (h i).trans ?_
  constructor
  · rintro ⟨j, hij, -, hbit⟩
    have hj : 2 ^ j ≤ x.toNat := Nat.ge_two_pow_of_testBit hbit
    exact lt_of_le_of_lt hij ((Nat.pow_lt_pow_iff_right (by decide)).mp (lt_of_le_of_lt hj hlt))
  · intro hi
    have hhigh : 2 ^ i ≤ x.toNat :=
      le_trans (Nat.pow_le_pow_right (by decide) (by omega)) (hge (by omega))
    obtain ⟨j, hij, hbit⟩ := Nat.exists_ge_and_testBit_of_ge_two_pow hhigh
    have hj : j < w := BitVec.lt_of_getLsbD (x := x) hbit
    exact ⟨j, hij, by omega, hbit⟩

end Words

end Crabbit.Lib
