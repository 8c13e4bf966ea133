/-
  Crabbit.Llvm.DivStrengthReduceExact

  The sequence that replaces a division by a constant computes the quotient or
  the remainder, for every dividend.

  The emitters are followed one by one: the multiply-high, the unsigned and
  the signed quotient, the remainder, and the widening of narrow operands.
-/

import Crabbit.Llvm.MagicNumbers
import Mathlib.Algebra.Order.Ring.Abs

namespace Crabbit.Llvm

open Crabbit.Lib

section Exact

variable {env : Env} {n : Nat} {facts : List Fact} {width : Nat} {ty : IntegerType} {a : Value}
  {x : Nat}

/-! ## Multiply-high -/

theorem yields_emitShr {signed : Bool} {k : Nat} (v b : Value) {y : Int}
    [Knows facts v width (wrap width y)] [Knows facts b width k] (hk : k < width)
    (h : InRange signed width y) :
    Yields env n facts (emitShr signed v b) width (wrap width (y / 2 ^ k)) := by
  cases signed
  · exact yields_lshrWrap v b hk h.1 h.2
  · exact yields_ashrWrap v b hk h

/-- A half word of each operand and a carry below the half word stay inside
    the word. -/
theorem inRange_mul_add {s : Bool} {p q c : Int}
    (hp : if s then -2 ^ 31 ≤ p ∧ p < 2 ^ 31 else 0 ≤ p ∧ p < 2 ^ 32)
    (hq : 0 ≤ q ∧ q < 2 ^ 32) (hc : 0 ≤ c ∧ c < 2 ^ 32) : InRange s 64 (p * q + c) := by
  obtain ⟨hq0, hq1⟩ := hq
  obtain ⟨hc0, hc1⟩ := hc
  cases s
  · obtain ⟨hp0, hp1⟩ := hp
    have hlo : 0 ≤ p * q := mul_nonneg hp0 hq0
    have hhi : p * q ≤ (2 ^ 32 - 1) * (2 ^ 32 - 1) :=
      mul_le_mul (by omega) (by omega) hq0 (by norm_num)
    constructor
    · omega
    · omega
  · obtain ⟨hp0, hp1⟩ := hp
    have hlo : -2 ^ 31 * q ≤ p * q := mul_le_mul_of_nonneg_right hp0 hq0
    have hhi : p * q ≤ (2 ^ 31 - 1) * q := mul_le_mul_of_nonneg_right (by omega) hq0
    constructor
    · show -2 ^ 63 ≤ _
      omega
    · show _ < 2 ^ 63
      omega

theorem half_of_inRange {signed : Bool} {u : Int} (h : InRange signed 64 u) :
    if signed then -2 ^ 31 ≤ u / 2 ^ 32 ∧ u / 2 ^ 32 < 2 ^ 31
      else 0 ≤ u / 2 ^ 32 ∧ u / 2 ^ 32 < 2 ^ 32 := by
  cases signed
  · have h0 : 0 ≤ u := h.1
    have h1 : u < 2 ^ 64 := h.2
    show 0 ≤ u / 2 ^ 32 ∧ u / 2 ^ 32 < 2 ^ 32
    omega
  · have h0 : -2 ^ 63 ≤ u := h.1
    have h1 : u < 2 ^ 63 := h.2
    show -2 ^ 31 ≤ u / 2 ^ 32 ∧ u / 2 ^ 32 < 2 ^ 31
    omega

theorem low_half (u : Int) : 0 ≤ u % 2 ^ 32 ∧ u % 2 ^ 32 < 2 ^ 32 := by
  omega

/-- The constant halves of the multiplier. -/
theorem multiplier_halves (signed : Bool) {m : Nat} (hm : m < 2 ^ 64) :
    m &&& (2 ^ 32 - 1) = wrap 64 (reading signed 64 m % 2 ^ 32) ∧
    (if signed then maskToWidth (wrap 128 (signExtend m 64 / 2 ^ 32)) 64
      else maskToWidth m 64 / 2 ^ 32) = wrap 64 (reading signed 64 m / 2 ^ 32) := by
  constructor
  · rw [← wrap_and_two_pow_sub_one (by omega), wrap_reading hm]
  · cases signed
    · rw [if_neg (by decide), reading_false, maskToWidth_eq (by omega), Nat.mod_eq_of_lt hm,
        ← wrap_div_two_pow (Int.natCast_nonneg m) (by exact_mod_cast hm), wrap_natCast_of_lt hm]
    · have hsigned : signExtend m 64 = toSigned 64 m := by
        rw [signExtend_eq (by omega) (by omega), Nat.mod_eq_of_lt hm]
      rw [if_pos rfl, reading_true, hsigned, maskToWidth_eq (by omega), wrap_mod_two_pow (by omega)]

/-- The half-word decomposition computes the high word. -/
theorem yields_emitMulh_64 {signed : Bool} {m : Nat} (hty : ty.width = 64)
    [ha : Knows facts a 64 x] (hm : m < 2 ^ 64) :
    Yields env n facts (emitMulh 64 ty a m signed) 64
      (wrap 64 (reading signed 64 x * reading signed 64 m / 2 ^ 64)) := by
  refine Yields.of_lt ha fun (hx : x < 2 ^ 64) => ?_
  obtain ⟨hv₀, hv₁⟩ := multiplier_halves signed hm
  have hU : InRange signed 64 (reading signed 64 x) := inRange_reading (by omega) hx
  have hV : InRange signed 64 (reading signed 64 m) := inRange_reading (by omega) hm
  rw [← wrap_reading (s := signed) hx] at ha
  unfold emitMulh
  rw [if_neg (by omega), show 0xFFFFFFFF = 2 ^ 32 - 1 from rfl, hv₀, hv₁]
  generalize reading signed 64 x = U at *
  generalize reading signed 64 m = V at *
  have hw₀ : 0 ≤ U % 2 ^ 32 * (V % 2 ^ 32) ∧ U % 2 ^ 32 * (V % 2 ^ 32) < 2 ^ 64 := by
    have h := inRange_mul_add (s := false) (low_half U) (low_half V) ⟨le_rfl, by norm_num⟩
    rw [add_zero] at h
    exact h
  have hcarry : 0 ≤ U % 2 ^ 32 * (V % 2 ^ 32) / 2 ^ 32 ∧
      U % 2 ^ 32 * (V % 2 ^ 32) / 2 ^ 32 < 2 ^ 32 := by omega
  -- Neither cross product leaves the word when the carry is added.
  have ht : InRange signed 64 (U / 2 ^ 32 * (V % 2 ^ 32) + U % 2 ^ 32 * (V % 2 ^ 32) / 2 ^ 32) :=
    inRange_mul_add (half_of_inRange hU) (low_half V) hcarry
  have hw₁ : InRange signed 64 (U % 2 ^ 32 * (V / 2 ^ 32)
      + (U / 2 ^ 32 * (V % 2 ^ 32) + U % 2 ^ 32 * (V % 2 ^ 32) / 2 ^ 32) % 2 ^ 32) := by
    rw [mul_comm (U % 2 ^ 32)]
    exact inRange_mul_add (half_of_inRange hV) (low_half U) (low_half _)
  refine (yields_emitConst (2 ^ 32 - 1) hty (by omega) (by omega)).bind fun mask32 => ?_
  refine (yields_emitConst 32 hty (by omega) (by omega)).bind fun c32 => ?_
  refine (yields_maskWrap a mask32 (by omega)).bind fun u₀ => ?_
  refine (yields_emitShr a c32 (by omega) hU).bind fun u₁ => ?_
  refine (yields_constWrap hty (by omega) _).bind fun v₀ => ?_
  refine (yields_constWrap hty (by omega) _).bind fun v₁ => ?_
  refine (yields_mulWrap u₀ v₀).bind fun w₀ => ?_
  refine (yields_mulWrap u₁ v₀).bind fun u₁v₀ => ?_
  refine (yields_lshrWrap w₀ c32 (by omega) hw₀.1 hw₀.2).bind fun w₀_hi => ?_
  refine (yields_addWrap u₁v₀ w₀_hi).bind fun t => ?_
  refine (yields_maskWrap t mask32 (by omega)).bind fun w₁_lo => ?_
  refine (yields_emitShr t c32 (by omega) ht).bind fun w₂ => ?_
  refine (yields_mulWrap u₀ v₁).bind fun u₀v₁ => ?_
  refine (yields_addWrap u₀v₁ w₁_lo).bind fun w₁ => ?_
  refine (yields_emitShr w₁ c32 (by omega) hw₁).bind fun w₁_hi => ?_
  refine (yields_mulWrap u₁ v₁).bind fun u₁v₁ => ?_
  refine (yields_addWrap u₁v₁ w₂).bind fun part => ?_
  refine (yields_addWrap part w₁_hi).congr ?_
  rw [show (2 : Int) ^ 64 = 2 ^ 32 * 2 ^ 32 by norm_num, mulHigh_halfWords (by norm_num) U V]

/-- 32-bit operands are multiplied in 64 bits. -/
theorem yields_emitMulh_32 {signed : Bool} {m : Nat} (hty : ty.width = 32)
    [ha : Knows facts a 32 x] (hm : m < 2 ^ 32) :
    Yields env n facts (emitMulh 32 ty a m signed) 32
      (wrap 32 (reading signed 32 x * reading signed 32 m / 2 ^ 32)) := by
  refine Yields.of_lt ha fun (hx : x < 2 ^ 32) => ?_
  have hU : InRange signed 32 (reading signed 32 x) := inRange_reading (by omega) hx
  have hV : InRange signed 32 (reading signed 32 m) := inRange_reading (by omega) hm
  have hwide_a : Yields env n facts
      (emitCast (if signed then .sext else .zext) a (IntegerType.get 64)) 64
      (wrap 64 (reading signed 32 x)) := by
    cases signed
    · refine (yields_emitZExt (w := 64) a rfl (by omega)).congr ?_
      rw [reading_false, wrap_natCast_of_lt (by omega)]
    · refine (yields_emitSExt (w := 64) a rfl).congr ?_
      rw [reading_true]
  have hm_wide : (if signed then maskToWidth (wrap 128 (signExtend m 32)) 64 else m)
      = wrap 64 (reading signed 32 m) := by
    cases signed
    · rw [if_neg (by decide), reading_false, wrap_natCast_of_lt (by omega)]
    · have hsigned : signExtend m 32 = toSigned 32 m := by
        rw [signExtend_eq (by omega) (by omega), Nat.mod_eq_of_lt hm]
      rw [if_pos rfl, reading_true, hsigned, maskToWidth_eq (by omega), wrap_mod_two_pow (by omega)]
  unfold emitMulh
  rw [if_pos rfl, hm_wide]
  generalize reading signed 32 x = U at *
  generalize reading signed 32 m = V at *
  refine hwide_a.bind fun wide_a => ?_
  refine (yields_constWrap rfl (by decide) _).bind fun m_c => ?_
  refine (yields_mulWrap wide_a m_c).bind fun prod => ?_
  refine (yields_emitConst 32 rfl (by decide) (by decide)).bind fun s32 => ?_
  refine (yields_emitLShr prod s32 (by omega)).bind fun hi => ?_
  refine (yields_emitTrunc hi hty).congr ?_
  -- The low half of the shifted product is its next 32 bits.
  have hcast : ((wrap 64 (U * V) / 2 ^ 32 % 2 ^ 32 : Nat) : Int) = (wrap 32 (U * V / 2 ^ 32) : Int) := by
    push_cast
    rw [natCast_wrap, natCast_wrap]
    omega
  exact_mod_cast hcast

theorem yields_emitMulh {signed : Bool} {m : Nat} (hw : width = 32 ∨ width = 64)
    (hty : ty.width = width) [Knows facts a width x] (hm : m < 2 ^ width) :
    Yields env n facts (emitMulh width ty a m signed) width
      (wrap width (reading signed width x * reading signed width m / 2 ^ width)) := by
  rcases hw with rfl | rfl
  · exact yields_emitMulh_32 hty hm
  · exact yields_emitMulh_64 hty hm

/-! ## Unsigned quotients -/

/-- Averaging with the high word: the fixup of a magic with one bit more than
    the word. -/
theorem average_div {M m p s y : Nat} (hM : M = m + 2 ^ width) (hp : p = width + s) (hs : 0 < s)
    (hle : y * m / 2 ^ width ≤ y) :
    ((y - y * m / 2 ^ width) / 2 + y * m / 2 ^ width) / 2 ^ (s - 1) = y * M / 2 ^ p := by
  have hpow : 2 ^ p = 2 ^ width * (2 * 2 ^ (s - 1)) := by
    rw [hp, pow_add, ← two_pow_eq_two_mul hs]
  have hsum : y * M / 2 ^ width = y * m / 2 ^ width + y := by
    rw [hM, Nat.mul_add, Nat.add_mul_div_right _ _ (Nat.two_pow_pos _)]
  rw [hpow, ← Nat.div_div_eq_div_mul, hsum, ← Nat.div_div_eq_div_mul]
  congr 1
  omega

theorem yields_expandUdiv {d : Nat} (hw : width = 32 ∨ width = 64) (hty : ty.width = width)
    [ha : Knows facts a width x] (h2 : 2 ≤ d) (hd : d < 2 ^ width) :
    Yields env n facts (expandUdiv width ty a d) width (x / d) := by
  refine Yields.of_lt ha fun hx => ?_
  have hw0 : 0 < width := by omega
  have hw128 : width < 128 := by omega
  have hself : width < 2 ^ width := Nat.lt_two_pow_self
  unfold expandUdiv
  by_cases hpow : isPowerOfTwo d = true
  · rw [if_pos hpow]
    obtain ⟨k, rfl⟩ := isPowerOfTwo_iff.mp hpow
    have hk : k < width := (Nat.pow_lt_pow_iff_right (by omega)).mp hd
    rw [Nat.log2_two_pow]
    refine (yields_emitConst _ hty hw128 (by omega)).bind fun kc => ?_
    exact yields_emitLShr a kc hk
  · rw [if_neg hpow]
    have h3 : 3 ≤ d := by
      rcases Nat.lt_or_ge d 3 with hlt | hge
      · exact absurd (isPowerOfTwo_iff.mpr ⟨1, by omega⟩) hpow
      · exact hge
    have hdiv : IsUnsignedDivisor width d := ⟨hw0, hw128, h3, hd⟩
    obtain ⟨p, e, M, hs⟩ := magicUnsigned_spec hdiv
    have hquot := hs.div_eq hdiv hx
    have hshift := hs.shift
    have hwp := hs.le_exponent
    have hp2 := hs.exponent_le
    have hM := hs.multiplier
    have hmul : Yields env n facts
        (emitMulh width ty a (magicUnsigned d width).multiplier false) width
        (x * (magicUnsigned d width).multiplier / 2 ^ width) := by
      refine (yields_emitMulh hw hty hs.multiplier_lt).congr ?_
      have hlt : x * (magicUnsigned d width).multiplier / 2 ^ width < 2 ^ width := by
        rw [Nat.div_lt_iff_lt_mul (Nat.two_pow_pos _)]
        exact Nat.mul_lt_mul'' hx hs.multiplier_lt
      rw [reading_false, reading_false, ← wrap_natCast_of_lt hlt]
      norm_cast
    refine hmul.bind fun t => ?_
    by_cases hadd : (magicUnsigned d width).add = false
    · have hslt := hs.shift_lt hdiv hadd
      rw [hadd, if_neg (by decide), Nat.add_zero] at hM
      rw [if_pos hadd]
      by_cases hzero : (magicUnsigned d width).shift = 0
      · rw [if_pos hzero]
        have hp : p = width := by omega
        refine (Yields.pure t).congr ?_
        rw [← hquot, hM, hp]
      · rw [if_neg hzero]
        refine (yields_emitConst _ hty hw128 (by omega)).bind fun s => ?_
        refine (yields_emitLShr t s hslt).congr ?_
        rw [← hquot, hM, Nat.div_div_eq_div_mul, ← pow_add, hshift, Nat.add_sub_cancel' hwp]
    · have hspos := hs.shift_pos hdiv (by simpa using hadd)
      rw [if_neg hadd]
      rw [if_pos (by simpa using hadd)] at hM
      have hle : x * (magicUnsigned d width).multiplier / 2 ^ width ≤ x := by
        rw [← Nat.lt_succ_iff, Nat.div_lt_iff_lt_mul (Nat.two_pow_pos _)]
        have := Nat.mul_le_mul_left x hs.multiplier_lt.le
        have := Nat.two_pow_pos width
        rw [Nat.succ_mul]
        omega
      have havg := average_div hM (p := p) (s := (magicUnsigned d width).shift) (by omega) hspos hle
      generalize x * (magicUnsigned d width).multiplier / 2 ^ width = T at *
      refine (yields_emitSub a t).bind fun diff => ?_
      refine (yields_emitConst 1 hty hw128 (Nat.one_lt_two_pow (by omega))).bind
        fun one => ?_
      refine (yields_emitLShr diff one (by omega)).bind fun half => ?_
      refine (yields_emitAdd half t).bind fun sum => ?_
      refine (yields_emitConst _ hty hw128 (by omega)).bind fun s => ?_
      refine (yields_emitLShr sum s (by omega)).congr ?_
      have hdiff : wrap width ((x : Int) - T) = x - T := by
        rw [← Nat.cast_sub hle, wrap_natCast_of_lt (by omega)]
      rw [hdiff, ← Nat.cast_add, wrap_natCast_of_lt (by omega), pow_one, havg, hquot]

/-! ## Signed quotients -/

/-- A negative dividend, biased by one less than the divisor, rounds toward
    zero. -/
theorem bias_ediv_two_pow (A : Int) (k : Nat) :
    (A + if A < 0 then 2 ^ k - 1 else 0) / 2 ^ k = A.tdiv (2 ^ k) := by
  have hpos := two_pow_pos_int k
  by_cases hA : A < 0
  · obtain ⟨c, rfl⟩ : ∃ c : Nat, A = -(c : Int) := ⟨A.natAbs, by omega⟩
    have hsplit := Int.mul_ediv_add_emod (c : Int) (2 ^ k)
    have hmod0 := Int.emod_nonneg (c : Int) hpos.ne'
    have hmod := Int.emod_lt_of_pos (c : Int) hpos
    have hbias : -(c : Int) + (2 ^ k - 1)
        = (2 ^ k - 1 - (c : Int) % 2 ^ k) + 2 ^ k * -((c : Int) / 2 ^ k) := by
      rw [mul_neg]
      linarith
    rw [if_pos hA, hbias, Int.add_mul_ediv_left _ _ hpos.ne',
      Int.ediv_eq_zero_of_lt (by omega) (by omega), zero_add, Int.neg_tdiv,
      Int.tdiv_eq_ediv_of_nonneg (Int.natCast_nonneg c)]
  · rw [if_neg hA, add_zero, Int.tdiv_eq_ediv_of_nonneg (by omega)]

/-- The sign word, shifted down to `k` bits, is the bias. -/
theorem sign_div_two_pow {k : Nat} {A : Int} (hk : k < width)
    (hA : InRange true width A) :
    wrap width (A / 2 ^ (width - 1)) / 2 ^ (width - k)
      = wrap width (if A < 0 then 2 ^ k - 1 else 0) := by
  have hpos := two_pow_pos_int (width - 1)
  have hsplit : 2 ^ width = 2 ^ (width - k) * 2 ^ k := by
    rw [← pow_add]
    congr 1
    omega
  have hle : 2 ^ k ≤ 2 ^ width := Nat.pow_le_pow_right (by omega) hk.le
  have hk1 := Nat.two_pow_pos k
  by_cases hneg : A < 0
  · have hsign : A / 2 ^ (width - 1) = -1 := by
      apply Int.ediv_eq_neg_one_of_neg_of_le hneg
      have := hA.1
      omega
    have hones : wrap width (-1) = 2 ^ width - 1 := by
      apply wrap_eq_of_modEq (by omega)
      rw [Int.modEq_iff_dvd, Nat.cast_sub (by omega), natCast_two_pow]
      exact ⟨-1, by push_cast; ring⟩
    have hbias : ((2 : Int) ^ k - 1) = ((2 ^ k - 1 : Nat) : Int) := by
      rw [Nat.cast_sub hk1, natCast_two_pow]
      rfl
    rw [hsign, hones, if_pos hneg, hbias, wrap_natCast_of_lt (by omega)]
    apply Nat.div_eq_of_lt_le
    · rw [Nat.sub_mul, Nat.mul_comm, ← hsplit, Nat.one_mul]
      have := Nat.two_pow_pos (width - k)
      omega
    · rw [Nat.sub_add_cancel hk1, Nat.mul_comm, ← hsplit]
      omega
  · have hsign : A / 2 ^ (width - 1) = 0 := Int.ediv_eq_zero_of_lt (by omega) hA.2
    rw [hsign, if_neg hneg]
    show wrap width ((0 : Nat) : Int) / _ = wrap width ((0 : Nat) : Int)
    rw [wrap_natCast, Nat.zero_mod, Nat.zero_div]

/-- The fixups make up for the multiplier's wrapped reading. -/
theorem yields_emitMagicFixup {d : Int} {q : Value} {magic : SignedMagic} {p e M : Nat} {A : Int}
    (h : IsSignedDivisor width d) (hs : SignedMagic.Spec width d magic p e M)
    [Knows facts a width (wrap width A)]
    [Knows facts q width (wrap width (A * magic.multiplier / 2 ^ width))] :
    Yields env n facts (emitMagicFixup d magic.multiplier q a) width
      (wrap width (A * signedMultiplier d M / 2 ^ width)) := by
  have hpos := two_pow_pos_int width
  unfold emitMagicFixup
  rcases hs.multiplier_cases h with ⟨heq, hpd, hnd⟩ | ⟨hd, hm, heq⟩ | ⟨hd, hm, heq⟩
  · rw [if_neg fun hc => absurd hc.2 (hpd hc.1).not_gt,
      if_neg fun hc => absurd hc.2 (hnd hc.1).not_gt]
    refine (Yields.pure q).congr ?_
    rw [heq]
  · rw [if_pos ⟨hd, hm⟩]
    refine (yields_addWrap q a).congr ?_
    rw [heq, mul_sub, Int.sub_mul_ediv_right _ _ hpos.ne', sub_add_cancel]
  · rw [if_neg fun hc => absurd hc.1 hd.not_gt, if_pos ⟨hd, hm⟩]
    refine (yields_subWrap q a).congr ?_
    rw [heq, mul_add, Int.add_mul_ediv_right _ _ hpos.ne', add_sub_cancel_right]

/-- Only `MIN / MIN` is not zero. -/
theorem yields_sdivMin {d : Nat} (hw : 0 < width) (hw' : width < 128) (hty : ty.width = width)
    [ha : Knows facts a width x] (hd : d < 2 ^ width)
    (hmin : toSigned width d = -2 ^ (width - 1)) :
    Yields env n facts (do
        let min_c ← emitConst ty d
        let cmp ← emitICmp .eq a min_c
        emitCast .zext cmp ty) width
      (wrap width ((toSigned width x).tdiv (toSigned width d))) := by
  refine Yields.of_lt ha fun hx => ?_
  refine (yields_emitConst _ hty hw' hd).bind fun min_c => ?_
  refine (yields_emitICmp a min_c).bind fun cmp => ?_
  refine (yields_emitZExt cmp hty (by omega)).congr ?_
  have hpos := two_pow_pos_int (width - 1)
  by_cases heq : x = d
  · have htrue : evalICmp .eq width x d = true := decide_eq_true heq
    rw [htrue, heq, hmin, Int.tdiv_self (by omega)]
    exact (wrap_natCast_of_lt (x := 1) (Nat.one_lt_two_pow (by omega))).symm
  · have hfalse : evalICmp .eq width x d = false := decide_eq_false heq
    have hne : toSigned width x ≠ -2 ^ (width - 1) := fun h =>
      heq (toSigned_inj hx hd (h.trans hmin.symm))
    have hlo := neg_two_pow_le_toSigned hw hx
    have hhi := toSigned_lt_two_pow hw hx
    have hzero : (toSigned width x).tdiv (toSigned width d) = 0 := by
      rw [hmin, Int.tdiv_neg]
      rcases lt_or_ge (toSigned width x) 0 with hneg | hnonneg
      · rw [← neg_neg (toSigned width x), Int.neg_tdiv,
          Int.tdiv_eq_zero_of_lt (by omega) (by omega)]
        rfl
      · rw [Int.tdiv_eq_zero_of_lt hnonneg hhi]
        rfl
    rw [hfalse, hzero]
    exact (wrap_natCast_of_lt (x := 0) (Nat.two_pow_pos _)).symm

/-- The sign-fix sequence for a power of two. -/
theorem yields_sdivPowerOfTwo {k : Nat} {d : Int} (hw : 0 < width) (hw' : width < 128)
    (hty : ty.width = width) [ha : Knows facts a width x] (hk : k < width - 1)
    (hk0 : 0 < k) (hd : d.natAbs = 2 ^ k) :
    Yields env n facts (do
        let w_m1 ← emitConst ty (width - 1)
        let sgn ← emitAShr a w_m1
        let w_m_k ← emitConst ty (width - k)
        let srl ← emitLShr sgn w_m_k
        let biased ← emitAdd a srl
        let k_c ← emitConst ty k
        let q ← emitAShr biased k_c
        if d < 0 then do
          let zero ← emitConst ty 0
          emitSub zero q
        else pure q) width
      (wrap width ((toSigned width x).tdiv d)) := by
  refine Yields.of_lt ha fun hx => ?_
  have hself : width < 2 ^ width := Nat.lt_two_pow_self
  have hA : InRange true width (toSigned width x) := inRange_reading (s := true) hw hx
  rw [← wrap_toSigned hx] at ha
  generalize toSigned width x = A at *
  have hbiased : InRange true width (A + if A < 0 then 2 ^ k - 1 else 0) := by
    have hlt : (2 : Int) ^ k ≤ 2 ^ (width - 1) := by
      exact_mod_cast Nat.pow_le_pow_right (by omega) hk.le
    have hpos := two_pow_pos_int k
    obtain ⟨hlo, hhi⟩ := hA
    constructor <;> split <;> omega
  refine (yields_emitConst _ hty hw' (by omega)).bind fun w_m1 => ?_
  refine (yields_ashrWrap a w_m1 (by omega) hA).bind fun sgn => ?_
  refine (yields_emitConst _ hty hw' (by omega)).bind fun w_m_k => ?_
  refine ((yields_emitLShr sgn w_m_k (by omega)).congr (sign_div_two_pow (by omega) hA)).bind
    fun srl => ?_
  refine (yields_addWrap a srl).bind fun biased => ?_
  refine (yields_emitConst _ hty hw' (by omega)).bind fun k_c => ?_
  refine ((yields_ashrWrap biased k_c (by omega) hbiased).congr
    (congrArg _ (bias_ediv_two_pow A k))).bind fun q => ?_
  have hcast : ((2 ^ k : Nat) : Int) = 2 ^ k := natCast_two_pow k
  by_cases hneg : d < 0
  · have hd' : d = -2 ^ k := by omega
    rw [if_pos hneg, hd']
    refine (yields_constWrap hty hw' 0).bind fun zero => ?_
    refine (yields_subWrap zero q).congr ?_
    rw [zero_sub, Int.tdiv_neg]
  · have hd' : d = 2 ^ k := by omega
    rw [if_neg hneg, hd']
    exact Yields.pure q

theorem yields_emitMagicShift {k : Nat} {A : Int} (q : Value) (hw' : width < 128)
    (hty : ty.width = width) [Knows facts q width (wrap width A)] (hk : k < width)
    (hA : InRange true width A) :
    Yields env n facts (emitMagicShift ty k q) width (wrap width (A / 2 ^ k)) := by
  have hself : width < 2 ^ width := Nat.lt_two_pow_self
  unfold emitMagicShift
  by_cases hzero : 0 < k
  · rw [if_pos hzero]
    refine (yields_emitConst _ hty hw' (by omega)).bind fun s => ?_
    exact yields_ashrWrap q s hk hA
  · obtain rfl : k = 0 := by omega
    rw [if_neg hzero]
    refine (Yields.pure q).congr ?_
    rw [pow_zero, Int.ediv_one]

/-- Dividing the magic product by the word or more brings it back into range. -/
theorem inRange_magic_div {d A : Int} {M j : Nat} (hA : InRange true width A)
    (hM : M < 2 ^ width) (hj : width ≤ j) :
    InRange true width (A * signedMultiplier d M / 2 ^ j) := by
  have hpos := two_pow_pos_int j
  have hhalf := two_pow_pos_int (width - 1)
  have hMj : (M : Int) < 2 ^ j := by
    exact_mod_cast lt_of_lt_of_le hM (Nat.pow_le_pow_right (by omega) hj)
  have habsA : |A| ≤ 2 ^ (width - 1) := abs_le.mpr ⟨hA.1, hA.2.le⟩
  have habsM : |signedMultiplier d M| = M := by
    unfold signedMultiplier
    split
    · rw [abs_neg, Nat.abs_cast]
    · rw [Nat.abs_cast]
  have hbound : |A * signedMultiplier d M| < 2 ^ (width - 1) * 2 ^ j := by
    rw [abs_mul, habsM]
    calc |A| * M ≤ 2 ^ (width - 1) * M := mul_le_mul_of_nonneg_right habsA (Int.natCast_nonneg M)
      _ < 2 ^ (width - 1) * 2 ^ j := mul_lt_mul_of_pos_left hMj hhalf
  obtain ⟨hlo, hhi⟩ := abs_lt.mp hbound
  constructor
  · rw [Int.le_ediv_iff_mul_le hpos]
    linarith
  · rwa [Int.ediv_lt_iff_lt_mul hpos]

/-- The product with the magic multiplier, shifted and rounded. -/
theorem yields_sdivMagic {d : Int} (hw : width = 32 ∨ width = 64) (hty : ty.width = width)
    [ha : Knows facts a width x] (h : IsSignedDivisor width d) :
    Yields env n facts (do
        let q ← emitMulh width ty a (maskToWidth (wrap 128 (magicSigned d width).multiplier) width)
          true
        let q ← emitMagicFixup d (magicSigned d width).multiplier q a
        let q ← emitMagicShift ty (magicSigned d width).shift q
        let w_m1 ← emitConst ty (width - 1)
        let sign ← emitLShr q w_m1
        emitAdd q sign) width
      (wrap width ((toSigned width x).tdiv d)) := by
  refine Yields.of_lt ha fun hx => ?_
  have hw0 : 0 < width := by omega
  have hw' : width < 128 := by omega
  have hself : width < 2 ^ width := Nat.lt_two_pow_self
  obtain ⟨p, e, M, hs⟩ := magicSigned_spec h
  have hA : InRange true width (toSigned width x) := inRange_reading (s := true) hw0 hx
  have hwp := hs.le_exponent
  have hp := hs.exponent_lt
  have hshift := hs.shift
  -- The multiply-high by the wrapped multiplier.
  have hmulh : Yields env n facts (emitMulh width ty a
      (maskToWidth (wrap 128 (magicSigned d width).multiplier) width) true) width
      (wrap width (toSigned width x * (magicSigned d width).multiplier / 2 ^ width)) := by
    refine (yields_emitMulh hw hty (maskToWidth_lt hw')).congr ?_
    rw [maskToWidth_eq hw', wrap_mod_two_pow hw'.le, reading_true, reading_true, hs.multiplier,
      wrap_toSigned (wrap_lt _ _)]
  rw [← wrap_toSigned hx] at ha
  generalize toSigned width x = A at *
  have hdivdiv : A * signedMultiplier d M / 2 ^ width / 2 ^ (p - width)
      = A * signedMultiplier d M / 2 ^ p := by
    rw [Int.ediv_ediv_of_nonneg (two_pow_pos_int width).le, ← pow_add, Nat.add_sub_cancel' hwp]
  have hrange : ∀ j, width ≤ j → InRange true width (A * signedMultiplier d M / 2 ^ j) :=
    fun j hj => inRange_magic_div hA hs.multiplier_lt hj
  refine hmulh.bind fun q => ?_
  refine (yields_emitMagicFixup h hs).bind fun q => ?_
  have hquot : wrap width (A * signedMultiplier d M / 2 ^ width / 2 ^ (magicSigned d width).shift)
      = wrap width (A * signedMultiplier d M / 2 ^ p) := by
    rw [hshift, hdivdiv]
  refine ((yields_emitMagicShift q hw' hty (by omega) (hrange width le_rfl)).congr hquot).bind
    fun q => ?_
  refine (yields_emitConst _ hty hw' (by omega)).bind fun w_m1 => ?_
  refine ((yields_emitLShr q w_m1 (by omega)).congr (wrap_div_half hw0 (hrange p hwp))).bind
    fun sign => ?_
  refine (yields_emitAdd q sign).congr ?_
  rw [← hs.tdiv_eq h hA, wrap_eq_wrap_iff]
  apply Int.ModEq.add (natCast_wrap_modEq _ _)
  rw [Nat.cast_ite]
  rfl

theorem yields_expandSdiv {d : Nat} (hw : width = 32 ∨ width = 64) (hty : ty.width = width)
    [ha : Knows facts a width x] (hd : d < 2 ^ width) (h2 : 2 ≤ (toSigned width d).natAbs) :
    Yields env n facts (expandSdiv width ty a d) width
      (wrap width ((toSigned width x).tdiv (toSigned width d))) := by
  have hw0 : 0 < width := by omega
  have hw' : width < 128 := by omega
  have hlo := neg_two_pow_le_toSigned hw0 hd
  have hhi := toSigned_lt_two_pow hw0 hd
  have hcast := natCast_two_pow (width - 1)
  have hsigned : signExtend d width = toSigned width d := by
    rw [signExtend_eq hw0 hw', Nat.mod_eq_of_lt hd]
  unfold expandSdiv
  rw [hsigned]
  by_cases hmin : toSigned width d = -(2 ^ (width - 1))
  · rw [if_pos hmin]
    exact yields_sdivMin hw0 hw' hty hd hmin
  · rw [if_neg hmin]
    have hlt : (toSigned width d).natAbs < 2 ^ (width - 1) := by omega
    by_cases hpow : isPowerOfTwo (toSigned width d).natAbs = true
    · obtain ⟨k, hk⟩ := isPowerOfTwo_iff.mp hpow
      have hkw : k < width - 1 := by
        rw [hk] at hlt
        exact (Nat.pow_lt_pow_iff_right (by omega)).mp hlt
      have hk0 : 0 < k := by
        rcases Nat.eq_zero_or_pos k with rfl | hpos
        · omega
        · exact hpos
      simp only [if_pos hpow]
      rw [hk, Nat.log2_two_pow]
      exact yields_sdivPowerOfTwo hw0 hw' hty hkw hk0 hk
    · simp only [if_neg hpow]
      have h3 : 3 ≤ (toSigned width d).natAbs := by
        rcases Nat.lt_or_ge (toSigned width d).natAbs 3 with hlt3 | hge
        · exact absurd (isPowerOfTwo_iff.mpr ⟨1, by omega⟩) hpow
        · exact hge
      exact yields_sdivMagic hw hty ⟨by omega, hw', by simpa using hpow, h3, hlt⟩

/-! ## Remainders -/

/-- `a - q * d` in wrapping arithmetic. -/
theorem yields_emitRemFromQuotient {d : Nat} {A Q : Int} (q : Value) (hw' : width < 128)
    (hty : ty.width = width) [Knows facts a width (wrap width A)]
    [Knows facts q width (wrap width Q)] (D : Int)
    (hD : wrap width D = d) :
    Yields env n facts (emitRemFromQuotient ty a q d) width (wrap width (A - Q * D)) := by
  unfold emitRemFromQuotient
  rw [← hD]
  refine (yields_constWrap hty hw' D).bind fun dv => ?_
  refine (yields_mulWrap q dv).bind fun prod => ?_
  exact yields_subWrap a prod

/-- The bits a division yields: truncated, and wrapping for MIN / -1. -/
def DivKind.result (kind : DivKind) (w x d : Nat) : Nat :=
  match kind with
  | .udiv => x / d
  | .urem => x % d
  | .sdiv => wrap w ((toSigned w x).tdiv (toSigned w d))
  | .srem => wrap w ((toSigned w x).tmod (toSigned w d))

theorem yields_expand {kind : DivKind} {d : Nat} (hw : width = 32 ∨ width = 64)
    (hty : ty.width = width) [ha : Knows facts a width x] (h2 : 2 ≤ d) (hd : d < 2 ^ width)
    (hs : kind.signed = true → 2 ≤ (toSigned width d).natAbs) :
    Yields env n facts (expand kind width ty a d) width (kind.result width x d) := by
  refine Yields.of_lt ha fun hx => ?_
  have hw' : width < 128 := by omega
  cases kind with
  | udiv => exact yields_expandUdiv hw hty h2 hd
  | sdiv => exact yields_expandSdiv hw hty hd (hs rfl)
  | urem =>
    unfold expand
    by_cases hpow : isPowerOfTwo d = true
    · obtain ⟨k, rfl⟩ := isPowerOfTwo_iff.mp hpow
      simp only [if_pos hpow]
      refine (yields_emitConst _ hty hw' (by omega)).bind fun mask => ?_
      refine (yields_emitAnd a mask).congr ?_
      exact Nat.and_two_pow_sub_one_eq_mod x k
    · simp only [if_neg hpow]
      have hq : x / d < 2 ^ width := lt_of_le_of_lt (Nat.div_le_self x d) hx
      have hquot : Yields env n facts (expandUdiv width ty a d) width
          (wrap width ((x / d : Nat) : Int)) :=
        (yields_expandUdiv hw hty h2 hd).congr (wrap_natCast_of_lt hq).symm
      rw [← wrap_natCast_of_lt hx] at ha
      refine hquot.bind fun q => ?_
      refine (yields_emitRemFromQuotient q hw' hty d (wrap_natCast_of_lt hd)).congr ?_
      have hrem : (x : Int) - ((x / d : Nat) : Int) * d = ((x % d : Nat) : Int) := by
        have hsplit : ((x % d + d * (x / d) : Nat) : Int) = x := by rw [Nat.mod_add_div]
        push_cast at hsplit ⊢
        linarith
      rw [hrem, wrap_natCast_of_lt (lt_of_le_of_lt (Nat.mod_le x d) hx)]
      rfl
  | srem =>
    unfold expand
    refine (yields_expandSdiv hw hty hd (hs rfl)).bind fun q => ?_
    rw [← wrap_toSigned hx] at ha
    refine (yields_emitRemFromQuotient q hw' hty _ (wrap_toSigned hd)).congr ?_
    show _ = wrap width ((toSigned width x).tmod (toSigned width d))
    rw [Int.tmod_def, mul_comm]

/-! ## The whole rewrite -/

/-- Division by one. -/
theorem DivKind.result_one (kind : DivKind) {w : Nat} (hw : 2 ≤ w) (hx : x < 2 ^ w) :
    kind.result w x 1 = if kind.rem then 0 else x := by
  have hone : toSigned w 1 = 1 :=
    toSigned_of_lt_half (by omega) (Nat.one_lt_two_pow (by omega))
  have hzero : wrap w 0 = 0 := wrap_natCast_of_lt (x := 0) (Nat.two_pow_pos w)
  cases kind with
  | sdiv =>
    show wrap w ((toSigned w x).tdiv (toSigned w 1)) = x
    rw [hone, Int.tdiv_one, wrap_toSigned hx]
  | udiv => exact Nat.div_one x
  | srem =>
    show wrap w ((toSigned w x).tmod (toSigned w 1)) = 0
    rw [hone, Int.tmod_one, hzero]
  | urem => exact Nat.mod_one x

/-- Division by minus one; the quotient of MIN wraps. -/
theorem DivKind.result_neg_one (kind : DivKind) {w d : Nat} (hk : kind.signed = true)
    (hd : toSigned w d = -1) :
    kind.result w x d = wrap w (if kind.rem then 0 else -toSigned w x) := by
  cases kind with
  | sdiv =>
    show wrap w ((toSigned w x).tdiv (toSigned w d)) = wrap w (-toSigned w x)
    rw [hd, Int.tdiv_neg, Int.tdiv_one]
  | srem =>
    show wrap w ((toSigned w x).tmod (toSigned w d)) = wrap w 0
    rw [hd, Int.tmod_neg, Int.tmod_one]
  | udiv => cases hk
  | urem => cases hk

/-- Widening the operands and truncating the result changes nothing. -/
theorem DivKind.result_widen (kind : DivKind) {v w d : Nat} (hv : 0 < v) (hvw : v ≤ w)
    (hx : x < 2 ^ v) (hd : d < 2 ^ v) :
    kind.result w (if kind.signed then wrap w (toSigned v x) else x)
        (if kind.signed then wrap w (toSigned v d) else d) % 2 ^ v
      = kind.result v x d := by
  cases kind with
  | sdiv =>
    show wrap w ((toSigned w (wrap w (toSigned v x))).tdiv (toSigned w (wrap w (toSigned v d))))
      % 2 ^ v = _
    rw [toSigned_wrap_toSigned hv hvw hx, toSigned_wrap_toSigned hv hvw hd, wrap_mod_two_pow hvw]
    rfl
  | srem =>
    show wrap w ((toSigned w (wrap w (toSigned v x))).tmod (toSigned w (wrap w (toSigned v d))))
      % 2 ^ v = _
    rw [toSigned_wrap_toSigned hv hvw hx, toSigned_wrap_toSigned hv hvw hd, wrap_mod_two_pow hvw]
    rfl
  | udiv => exact Nat.mod_eq_of_lt (lt_of_le_of_lt (Nat.div_le_self x d) hx)
  | urem => exact Nat.mod_eq_of_lt (lt_of_le_of_lt (Nat.mod_le x d) hx)

/-- A divisor that is neither 0, 1 nor -1. -/
theorem two_le_natAbs_toSigned {w d : Nat} (hw : 2 ≤ w) (hd : d < 2 ^ w) (h0 : d ≠ 0)
    (h1 : d ≠ 1) (hn : toSigned w d ≠ -1) : 2 ≤ (toSigned w d).natAbs := by
  have hzero : toSigned w d ≠ 0 := fun h =>
    h0 (toSigned_inj hd (Nat.two_pow_pos w) (h.trans (toSigned_of_lt_half (by omega)
      (Nat.two_pow_pos _)).symm))
  have hone : toSigned w d ≠ 1 := fun h =>
    h1 (toSigned_inj hd (Nat.one_lt_two_pow (by omega)) (h.trans (toSigned_of_lt_half (by omega)
      (Nat.one_lt_two_pow (by omega))).symm))
  omega

theorem yields_reduceDiv (kind : DivKind) {c : ConstOperand} [ha : Knows facts a c.width x]
    (hw : c.width = 8 ∨ c.width = 16 ∨ c.width = 32 ∨ c.width = 64)
    (hty : c.ty.width = c.width) (h0 : c.masked ≠ 0) :
    Yields env n facts (reduceDiv kind a c) c.width (kind.result c.width x c.masked) := by
  refine Yields.of_lt ha fun hx => ?_
  have hw' : c.width < 128 := by omega
  have hd : c.masked < 2 ^ c.width := maskToWidth_lt hw'
  have hsigned : c.signed = toSigned c.width c.masked := by
    unfold ConstOperand.signed ConstOperand.masked
    rw [signExtend_eq (by omega) hw', maskToWidth_eq hw']
  have hpos := Nat.two_pow_pos c.width
  unfold reduceDiv
  simp only [hsigned]
  generalize c.masked = d at *
  generalize c.width = w at *
  generalize c.ty = ty at *
  by_cases h1 : d = 1
  · subst h1
    rw [if_pos rfl, kind.result_one (by omega) hx]
    by_cases hrem : kind.rem = true
    · rw [if_pos hrem, if_pos hrem]
      exact yields_emitConst 0 hty hw' hpos
    · rw [if_neg hrem, if_neg hrem]
      exact Yields.pure a
  rw [if_neg h1]
  by_cases hneg : kind.signed = true ∧ toSigned w d = -1
  · rw [if_pos hneg, kind.result_neg_one hneg.1 hneg.2]
    by_cases hrem : kind.rem = true
    · rw [if_pos hrem, if_pos hrem]
      exact (yields_emitConst 0 hty hw' hpos).congr
        (wrap_natCast_of_lt (x := 0) hpos).symm
    · rw [if_neg hrem, if_neg hrem]
      rw [← wrap_toSigned hx] at ha
      refine (yields_constWrap hty hw' 0).bind fun zero => ?_
      refine (yields_subWrap zero a).congr ?_
      rw [zero_sub]
  rw [if_neg hneg]
  have h2 : kind.signed = true → 2 ≤ (toSigned w d).natAbs := fun hk =>
    two_le_natAbs_toSigned (by omega) hd h0 h1 fun h => hneg ⟨hk, h⟩
  by_cases hnarrow : w < 32
  · rw [if_pos hnarrow]
    -- The narrow operands are widened to 32 bits and the result cut back.
    have hle : 2 ^ w ≤ 2 ^ 32 := Nat.pow_le_pow_right (by omega) hnarrow.le
    have hwide : Yields env n facts
        (emitCast (if kind.signed then .sext else .zext) a (IntegerType.get 32)) 32
        (if kind.signed then wrap 32 (toSigned w x) else x) := by
      cases kind.signed
      · exact yields_emitZExt (w := 32) a rfl hnarrow.le
      · exact yields_emitSExt (w := 32) a rfl
    have hwide_d : (if kind.signed then wrap 128 (toSigned w d) &&& maskToWidth (2 ^ 128 - 1) 32
        else d) = if kind.signed then wrap 32 (toSigned w d) else d := by
      rw [maskToWidth_ones (by omega), Nat.and_two_pow_sub_one_eq_mod, wrap_mod_two_pow (by omega)]
    rw [hwide_d]
    refine hwide.bind fun wide => ?_
    have hread : kind.signed = true → 2 ≤ (toSigned 32 (wrap 32 (toSigned w d))).natAbs := by
      intro hk
      rw [toSigned_wrap_toSigned (by omega) hnarrow.le hd]
      exact h2 hk
    refine (yields_expand (Or.inl rfl) rfl ?_ ?_ fun hk => ?_).bind fun wide_result => ?_
    · split
      · exact two_le_of_two_le_natAbs (by omega) (hread ‹_›)
      · omega
    · split
      · exact wrap_lt _ _
      · omega
    · rw [if_pos hk]
      exact hread hk
    · refine (yields_emitTrunc wide_result hty).congr ?_
      exact kind.result_widen (by omega) hnarrow.le hx hd
  · rw [if_neg hnarrow]
    exact yields_expand (by omega) hty (by omega) hd h2

end Exact

/-- A constant found among the definitions carries its own width. -/
theorem asConstOperand_width {defs : List Operation} {value : Value} {c : ConstOperand}
    (h : asConstOperand defs value = some c) : c.ty.width = c.width := by
  unfold asConstOperand at h
  split at h
  · cases h
    rfl
  · cases h

theorem divKind_binOp (kind : DivKind) (dividend divisor : Value) :
    divKind (.bin kind.binOp dividend divisor) = some (kind, dividend, divisor) := by
  cases kind <;> rfl

/-- Strength reduction of a division by a non-zero constant of width 8, 16, 32
    or 64 always happens, and what is inserted computes the truncated quotient
    or remainder from any dividend. -/
theorem rewriteDiv_exact (kind : DivKind) (defs : List Operation) (dividend divisor : Value)
    (c : ConstOperand) (hconst : asConstOperand defs divisor = some c)
    (hwidth : c.width = 8 ∨ c.width = 16 ∨ c.width = 32 ∨ c.width = 64) (hzero : c.masked ≠ 0)
    (env : Env) (next x : Nat) (hty : dividend.ty.intWidth = some c.width) (hx : x < 2 ^ c.width)
    (hid : dividend.id < next) (hdividend : env dividend.id = some x) :
    ∃ v s env', rewriteDiv defs (.bin kind.binOp dividend divisor) ⟨next, []⟩ = (some v, s) ∧
      runOps s.emitted env = some env' ∧ (∀ i < next, env' i = env i) ∧
      v.ty.intWidth = some c.width ∧ env' v.id = some (kind.result c.width x c.masked) := by
  have hknown : Known env next ⟨next, []⟩ [⟨dividend, c.width, x⟩] := by
    refine ⟨le_rfl, env, rfl, fun _ _ => rfl, fun f hf => ?_⟩
    obtain rfl := List.mem_singleton.mp hf
    exact ⟨hid, hty, hx, hdividend⟩
  have hrun : rewriteDiv defs (.bin kind.binOp dividend divisor) ⟨next, []⟩
      = (some (reduceDiv kind dividend c ⟨next, []⟩).1, (reduceDiv kind dividend c ⟨next, []⟩).2) := by
    unfold rewriteDiv
    simp only [divKind_binOp, hconst, if_neg (not_not_intro hwidth), if_neg hzero]
    rfl
  obtain ⟨-, env', hops, hframe, hfacts⟩ :=
    yields_reduceDiv (a := dividend) kind hwidth (asConstOperand_width hconst) hzero _ hknown
  obtain ⟨-, hres⟩ := hfacts _ List.mem_cons_self
  exact ⟨_, _, env', hrun, hops, hframe, hres.width, hres.bits⟩

/-- `-100 / 7` at width 8. -/
theorem rewriteDiv_exact_i8 :
    ∃ v s env', rewriteDiv [⟨.constant 7, ⟨1, .i 8⟩⟩] (.bin .sdiv ⟨0, .i 8⟩ ⟨1, .i 8⟩) ⟨2, []⟩
        = (some v, s) ∧
      runOps s.emitted (Function.update (fun _ => none) 0 (some 156)) = some env' ∧
      (∀ i < 2, env' i = Function.update (fun _ => none) 0 (some 156) i) ∧
      v.ty.intWidth = some 8 ∧ env' v.id = some (DivKind.sdiv.result 8 156 7) :=
  rewriteDiv_exact .sdiv [⟨.constant 7, ⟨1, .i 8⟩⟩] ⟨0, .i 8⟩ ⟨1, .i 8⟩ ⟨7, 8, ⟨8, .signless⟩⟩
    (by decide) (by decide) (by decide) _ 2 156 (by decide) (by decide) (by decide) rfl

end Crabbit.Llvm
