/-
  Crabbit.Lib.WideWords

  Arithmetic on words of twice the size, in terms of their two halves: carries
  and borrows, the product of halves, shifts across the halves, comparisons.
-/

import Mathlib.Data.BitVec
import Mathlib.Data.Nat.Bitwise
import Mathlib.Tactic.Ring

namespace Crabbit.Lib

section Wide

variable {n : Nat}

/-- The word whose low half is `lo`. -/
def wide (lo hi : BitVec n) : BitVec (n + n) := hi ++ lo

variable (lo hi lo' hi' : BitVec n)

theorem toNat_wide : (wide lo hi).toNat = hi.toNat * 2 ^ n + lo.toNat := by
  rw [wide, BitVec.toNat_append, Nat.shiftLeft_eq, Nat.mul_comm, Nat.two_pow_add_eq_or_of_lt lo.isLt]

theorem getLsbD_wide (i : Nat) :
    (wide lo hi).getLsbD i = if i < n then lo.getLsbD i else hi.getLsbD (i - n) := by
  rw [wide, BitVec.getLsbD_append]

/-- A word is made of its halves. -/
theorem wide_of_toNat {x : BitVec (n + n)} (hlo : x.toNat % 2 ^ n = lo.toNat)
    (hhi : x.toNat / 2 ^ n % 2 ^ n = hi.toNat) : x = wide lo hi := by
  apply BitVec.eq_of_toNat_eq
  rw [toNat_wide, ← hlo, ← hhi]
  have hlt : x.toNat / 2 ^ n < 2 ^ n := by
    rw [Nat.div_lt_iff_lt_mul (Nat.two_pow_pos n), ← Nat.pow_add]
    exact x.isLt
  rw [Nat.mod_eq_of_lt hlt, Nat.mul_comm, Nat.div_add_mod]

/-! ## Arithmetic -/

/-- The low and the high half of a number modulo the size of a word. -/
theorem mod_two_pow_add (x : Nat) :
    x % 2 ^ (n + n) % 2 ^ n = x % 2 ^ n ∧ x % 2 ^ (n + n) / 2 ^ n = x / 2 ^ n % 2 ^ n := by
  rw [Nat.pow_add]
  exact ⟨Nat.mod_mul_right_mod .., Nat.mod_mul_right_div_self ..⟩

/-- A carry out of a sum: it is below its first operand. -/
theorem ult_add_self : (lo + lo').ult lo = decide (2 ^ n ≤ lo.toNat + lo'.toNat) := by
  have hlt := lo.isLt
  have hlt' := lo'.isLt
  rw [BitVec.ult, BitVec.toNat_add, decide_eq_decide]
  rcases Nat.lt_or_ge (lo.toNat + lo'.toNat) (2 ^ n) with h | h
  · rw [Nat.mod_eq_of_lt h]
    omega
  · rw [Nat.mod_eq_sub_mod h, Nat.mod_eq_of_lt (by omega)]
    omega

theorem wide_add : wide lo hi + wide lo' hi' =
    wide (lo + lo') (hi + hi' + if (lo + lo').ult lo then 1 else 0) := by
  have hlt := lo.isLt
  have hlt' := lo'.isLt
  have hsum : hi.toNat * 2 ^ n + lo.toNat + (hi'.toNat * 2 ^ n + lo'.toNat) =
      lo.toNat + lo'.toNat + 2 ^ n * (hi.toNat + hi'.toNat) := by
    ring
  apply wide_of_toNat
  · rw [BitVec.toNat_add, (mod_two_pow_add _).1, toNat_wide, toNat_wide, hsum,
      Nat.add_mul_mod_self_left, BitVec.toNat_add]
  · rw [BitVec.toNat_add, (mod_two_pow_add _).2, toNat_wide, toNat_wide, hsum,
      Nat.add_mul_div_left _ _ (Nat.two_pow_pos n), Nat.mod_mod, ult_add_self]
    -- The carry is the quotient of the sum of the low halves.
    rcases Nat.lt_or_ge (lo.toNat + lo'.toNat) (2 ^ n) with h | h
    · rw [Nat.div_eq_of_lt h, decide_eq_false (Nat.not_le.mpr h)]
      simp
    · have hone : (lo.toNat + lo'.toNat) / 2 ^ n = 1 :=
        Nat.div_eq_of_lt_le (by omega) (by omega)
      rw [hone, decide_eq_true h]
      simp [Nat.add_comm]

/-- A borrow: the difference is above its first operand. -/
theorem ult_sub_self : lo.ult (lo - lo') = lo.ult lo' := by
  have hlt := lo.isLt
  have hlt' := lo'.isLt
  rw [BitVec.ult, BitVec.ult, BitVec.toNat_sub, decide_eq_decide]
  rcases Nat.lt_or_ge lo.toNat lo'.toNat with h | h
  · rw [Nat.mod_eq_of_lt (by omega)]
    omega
  · rw [Nat.mod_eq_sub_mod (by omega), Nat.mod_eq_of_lt (by omega)]
    omega

theorem wide_sub : wide lo hi - wide lo' hi' =
    wide (lo - lo') (hi - hi' - if lo.ult lo' then 1 else 0) := by
  rw [eq_comm, BitVec.eq_sub_iff_add_eq, wide_add, BitVec.sub_add_cancel, ult_sub_self]
  congr 1
  ring

theorem wide_mul : wide lo hi * wide lo' hi' =
    wide (lo * lo')
      (BitVec.ofNat n (lo.toNat * lo'.toNat / 2 ^ n) + hi * lo' + lo * hi') := by
  have hprod : (hi.toNat * 2 ^ n + lo.toNat) * (hi'.toNat * 2 ^ n + lo'.toNat) =
      lo.toNat * lo'.toNat + 2 ^ n *
        (hi.toNat * lo'.toNat + lo.toNat * hi'.toNat + 2 ^ n * (hi.toNat * hi'.toNat)) := by
    ring
  apply wide_of_toNat
  · rw [BitVec.toNat_mul, (mod_two_pow_add _).1, toNat_wide, toNat_wide, hprod,
      Nat.add_mul_mod_self_left, BitVec.toNat_mul]
  · rw [BitVec.toNat_mul, (mod_two_pow_add _).2, toNat_wide, toNat_wide, hprod,
      Nat.add_mul_div_left _ _ (Nat.two_pow_pos n), Nat.mod_mod, ← Nat.add_assoc,
      Nat.add_mul_mod_self_left]
    simp [Nat.add_assoc]

/-! ## Bits -/

theorem wide_and : wide lo hi &&& wide lo' hi' = wide (lo &&& lo') (hi &&& hi') := by
  apply BitVec.eq_of_getLsbD_eq
  intro i _
  simp only [BitVec.getLsbD_and, getLsbD_wide]
  split <;> rfl

theorem wide_or : wide lo hi ||| wide lo' hi' = wide (lo ||| lo') (hi ||| hi') := by
  apply BitVec.eq_of_getLsbD_eq
  intro i _
  simp only [BitVec.getLsbD_or, getLsbD_wide]
  split <;> rfl

theorem wide_xor : wide lo hi ^^^ wide lo' hi' = wide (lo ^^^ lo') (hi ^^^ hi') := by
  apply BitVec.eq_of_getLsbD_eq
  intro i _
  simp only [BitVec.getLsbD_xor, getLsbD_wide]
  split <;> rfl

/-! ## Shifts -/

/-- The bits that leave the low half enter the high one. -/
theorem wide_shl_of_lt {s : Nat} (h0 : 0 < s) (h : s < n) :
    wide lo hi <<< s = wide (lo <<< s) (hi <<< s ||| lo >>> (n - s)) := by
  apply BitVec.eq_of_getLsbD_eq
  intro i hi'
  simp only [BitVec.getLsbD_shiftLeft, getLsbD_wide, BitVec.getLsbD_or, BitVec.getLsbD_ushiftRight]
  by_cases hin : i < n
  · simp [hin, hi', show i - s < n by omega]
  · by_cases his : i - s < n
    · have hidx : n - s + (i - n) = i - s := by omega
      simp [hin, hi', his, hidx, show ¬i < s by omega, show i - n < s by omega]
    · have hidx : i - n - s = i - s - n := by omega
      have hout : lo.getLsbD (n - s + (i - n)) = false := BitVec.getLsbD_of_ge _ _ (by omega)
      simp [hin, hi', his, hidx, hout, show ¬i < s by omega, show ¬i - n < s by omega,
        show i - n < n by omega]

theorem wide_shl_of_ge {s : Nat} (h : n ≤ s) : wide lo hi <<< s = wide 0 (lo <<< (s - n)) := by
  apply BitVec.eq_of_getLsbD_eq
  intro i hi'
  simp only [BitVec.getLsbD_shiftLeft, getLsbD_wide]
  by_cases hin : i < n
  · simp [hin, show i < s by omega]
  · by_cases his : i < s
    · simp [hin, his, show i - n < s - n by omega]
    · have hidx : i - n - (s - n) = i - s := by omega
      simp [hin, his, hi', hidx, show i - s < n by omega, show ¬i - n < s - n by omega,
        show i - n < n by omega]

/-- The bits that leave the high half enter the low one. -/
theorem wide_lshr_of_lt {s : Nat} (h0 : 0 < s) (h : s < n) :
    wide lo hi >>> s = wide (lo >>> s ||| hi <<< (n - s)) (hi >>> s) := by
  apply BitVec.eq_of_getLsbD_eq
  intro i hi'
  simp only [BitVec.getLsbD_ushiftRight, getLsbD_wide, BitVec.getLsbD_or, BitVec.getLsbD_shiftLeft]
  by_cases hin : i < n
  · by_cases his : s + i < n
    · simp [hin, his, show i < n - s by omega]
    · have hidx : s + i - n = i - (n - s) := by omega
      have hout : lo.getLsbD (s + i) = false := BitVec.getLsbD_of_ge _ _ (by omega)
      simp [hin, his, hidx, hout, show ¬i < n - s by omega]
  · have hidx : s + i - n = s + (i - n) := by omega
    simp [hin, hidx, show ¬s + i < n by omega]

theorem wide_lshr_of_ge {s : Nat} (h : n ≤ s) : wide lo hi >>> s = wide (hi >>> (s - n)) 0 := by
  apply BitVec.eq_of_getLsbD_eq
  intro i hi'
  simp only [BitVec.getLsbD_ushiftRight, getLsbD_wide]
  by_cases hin : i < n
  · have hidx : s + i - n = s - n + i := by omega
    simp [hin, hidx, show ¬s + i < n by omega]
  · have hout : hi.getLsbD (s + i - n) = false := BitVec.getLsbD_of_ge _ _ (by omega)
    simp [hin, hout, show ¬s + i < n by omega]

theorem msb_wide (h : 0 < n) : (wide lo hi).msb = hi.msb := by
  rw [BitVec.msb_eq_getLsbD_last, BitVec.msb_eq_getLsbD_last, getLsbD_wide, if_neg (by omega)]
  congr 1
  omega

theorem wide_ashr_of_lt {s : Nat} (h0 : 0 < s) (h : s < n) :
    (wide lo hi).sshiftRight s = wide (lo >>> s ||| hi <<< (n - s)) (hi.sshiftRight s) := by
  apply BitVec.eq_of_getLsbD_eq
  intro i hi'
  simp only [BitVec.getLsbD_sshiftRight, msb_wide lo hi (by omega), getLsbD_wide, BitVec.getLsbD_or,
    BitVec.getLsbD_ushiftRight, BitVec.getLsbD_shiftLeft]
  by_cases hin : i < n
  · by_cases his : s + i < n
    · simp [hin, his, show ¬n + n ≤ i by omega, show s + i < n + n by omega,
        show i < n - s by omega]
    · have hidx : s + i - n = i - (n - s) := by omega
      have hout : lo.getLsbD (s + i) = false := BitVec.getLsbD_of_ge _ _ (by omega)
      simp [hin, his, hidx, hout, show ¬n + n ≤ i by omega, show s + i < n + n by omega,
        show ¬i < n - s by omega]
  · have hidx : s + i - n = s + (i - n) := by omega
    have hcond : s + i < n + n ↔ s + (i - n) < n := by omega
    simp [hin, hidx, hcond, show ¬n + n ≤ i by omega, show ¬n ≤ i - n by omega,
      show ¬s + i < n by omega]

/-- What is left is the sign. -/
theorem wide_ashr_of_ge {s : Nat} (h0 : 0 < n) (h : n ≤ s) :
    (wide lo hi).sshiftRight s = wide (hi.sshiftRight (s - n)) (hi.sshiftRight (n - 1)) := by
  apply BitVec.eq_of_getLsbD_eq
  intro i hi'
  simp only [BitVec.getLsbD_sshiftRight, msb_wide lo hi h0, getLsbD_wide]
  by_cases hin : i < n
  · have hidx : s + i - n = s - n + i := by omega
    have hcond : s + i < n + n ↔ s - n + i < n := by omega
    simp [hin, hidx, hcond, show ¬n + n ≤ i by omega, show ¬s + i < n by omega,
      show ¬n ≤ i by omega]
  · have hsign : s + i < n + n → False := by omega
    by_cases hlast : n - 1 + (i - n) < n
    · have hidx : n - 1 + (i - n) = n - 1 := by omega
      simp [hin, hidx, show ¬n + n ≤ i by omega, show ¬s + i < n + n by omega,
        show ¬n ≤ i - n by omega, BitVec.msb_eq_getLsbD_last, show n - 1 < n by omega]
    · simp [hin, hlast, show ¬n + n ≤ i by omega, show ¬s + i < n + n by omega,
        show ¬n ≤ i - n by omega]

/-! ## Comparisons -/

theorem wide_eq_iff : wide lo hi = wide lo' hi' ↔ hi = hi' ∧ lo = lo' := by
  constructor
  · intro h
    have hnat := congrArg BitVec.toNat h
    rw [toNat_wide, toNat_wide] at hnat
    have hdiv := congrArg (· / 2 ^ n) hnat
    have hmod := congrArg (· % 2 ^ n) hnat
    simp only [Nat.mul_comm _ (2 ^ n), Nat.mul_add_div (Nat.two_pow_pos n),
      Nat.mul_add_mod, Nat.div_eq_of_lt lo.isLt, Nat.div_eq_of_lt lo'.isLt, Nat.add_zero,
      Nat.mod_eq_of_lt lo.isLt, Nat.mod_eq_of_lt lo'.isLt] at hdiv hmod
    exact ⟨BitVec.eq_of_toNat_eq hdiv, BitVec.eq_of_toNat_eq hmod⟩
  · rintro ⟨rfl, rfl⟩
    rfl

/-- The high halves decide, the low ones where those are equal. -/
theorem wide_toNat_lt_iff : (wide lo hi).toNat < (wide lo' hi').toNat ↔
    hi.toNat < hi'.toNat ∨ hi = hi' ∧ lo.toNat < lo'.toNat := by
  have hlt := lo.isLt
  have hlt' := lo'.isLt
  rw [toNat_wide, toNat_wide, ← BitVec.toNat_inj]
  rcases Nat.lt_trichotomy hi.toNat hi'.toNat with h | h | h
  · have hle : (hi.toNat + 1) * 2 ^ n ≤ hi'.toNat * 2 ^ n := Nat.mul_le_mul_right _ h
    rw [Nat.succ_mul] at hle
    omega
  · rw [h]
    omega
  · have hle : (hi'.toNat + 1) * 2 ^ n ≤ hi.toNat * 2 ^ n := Nat.mul_le_mul_right _ h
    rw [Nat.succ_mul] at hle
    omega

theorem toInt_wide (h : 0 < n) : (wide lo hi).toInt = hi.toInt * 2 ^ n + lo.toNat := by
  rw [BitVec.toInt_eq_msb_cond, BitVec.toInt_eq_msb_cond, msb_wide lo hi h, toNat_wide]
  split
  · push_cast
    ring
  · push_cast
    ring

theorem wide_toInt_lt_iff (h : 0 < n) : (wide lo hi).toInt < (wide lo' hi').toInt ↔
    hi.toInt < hi'.toInt ∨ hi = hi' ∧ lo.toNat < lo'.toNat := by
  have hpos : (0 : Int) < 2 ^ n := Int.pow_pos (by decide)
  have hlt : (lo.toNat : Int) < 2 ^ n := by exact_mod_cast lo.isLt
  have hlt' : (lo'.toNat : Int) < 2 ^ n := by exact_mod_cast lo'.isLt
  rw [toInt_wide lo hi h, toInt_wide lo' hi' h, ← BitVec.toInt_inj]
  rcases lt_trichotomy hi.toInt hi'.toInt with hc | hc | hc
  · have hle : (hi.toInt + 1) * 2 ^ n ≤ hi'.toInt * 2 ^ n :=
      Int.mul_le_mul_of_nonneg_right hc (Int.le_of_lt hpos)
    rw [Int.add_mul] at hle
    omega
  · rw [hc]
    omega
  · have hle : (hi'.toInt + 1) * 2 ^ n ≤ hi.toInt * 2 ^ n :=
      Int.mul_le_mul_of_nonneg_right hc (Int.le_of_lt hpos)
    rw [Int.add_mul] at hle
    omega

end Wide

end Crabbit.Lib
