/-
  Crabbit.Llvm.MagicNumbers

  What the magic-number loops find.  The state of either loop is a function of
  its exponent `p` alone (`unsignedStateAt`, `signedStateAt`), so the loop ends
  at the least `p` that clears its condition, and that condition is the error
  bound magic division asks for.
-/

import Crabbit.Llvm.DivStrengthReduce
import Crabbit.Lib.MagicDivision
import Mathlib.Data.Nat.Prime.Basic

namespace Crabbit.Llvm

open Crabbit.Lib

/-! ## Powers of two -/

theorem isPowerOfTwo_iff {d : Nat} : isPowerOfTwo d = true ↔ ∃ k, d = 2 ^ k := by
  unfold isPowerOfTwo
  rw [decide_eq_true_eq]
  constructor
  · intro h
    exact ⟨_, h⟩
  · rintro ⟨k, rfl⟩
    rw [Nat.log2_two_pow]

/-- A number that is no power of two divides none. -/
theorem two_pow_mod_pos {d : Nat} (h : isPowerOfTwo d = false) (p : Nat) : 0 < 2 ^ p % d := by
  apply Nat.pos_of_ne_zero
  intro hzero
  obtain ⟨k, -, hk⟩ := (Nat.dvd_prime_pow Nat.prime_two).mp (Nat.dvd_of_mod_eq_zero hzero)
  rw [isPowerOfTwo_iff.mpr ⟨k, hk⟩] at h
  cases h

theorem maskToWidth_ones {width : Nat} (h : width < 128) :
    maskToWidth (2 ^ 128 - 1) width = 2 ^ width - 1 := by
  have hsplit : (2 : Nat) ^ 128 = 2 ^ width * 2 ^ (128 - width) := by
    rw [← pow_add]
    congr 1
    omega
  have hpos := Nat.two_pow_pos width
  have hpos' := Nat.two_pow_pos (128 - width)
  rw [maskToWidth_eq h, hsplit]
  have hsub : 2 ^ width * 2 ^ (128 - width) - 1
      = 2 ^ width - 1 + 2 ^ width * (2 ^ (128 - width) - 1) := by
    rw [Nat.mul_sub, Nat.mul_one]
    have := Nat.le_mul_of_pos_right (2 ^ width) hpos'
    omega
  rw [hsub, Nat.add_mul_mod_self_left, Nat.mod_eq_of_lt (by omega)]

/-! ## `magicUnsigned` -/

/-- The loop variables of `magicUnsigned` when the exponent is `p`. -/
def unsignedStateAt (nc d width p : Nat) : MagicState :=
  ⟨p, 2 ^ p / nc, 2 ^ p % nc, (2 ^ p - 1) / d, (2 ^ p - 1) % d,
    decide (2 ^ width ≤ (2 ^ p - 1) / d + 1)⟩

theorem magicUnsignedStep_stateAt {nc d width p : Nat} (hnc : 0 < nc) (hd : 0 < d)
    (hw : 0 < width) :
    magicUnsignedStep nc d width (unsignedStateAt nc d width p)
      = unsignedStateAt nc d width (p + 1) := by
  have hhalf := two_pow_eq_two_mul hw
  have hpos := Nat.two_pow_pos p
  have hpow : 2 ^ (p + 1) = 2 * 2 ^ p + 0 := by rw [pow_succ, Nat.mul_comm, Nat.add_zero]
  have hpow' : 2 ^ (p + 1) - 1 = 2 * (2 ^ p - 1) + 1 := by omega
  have hr₁ := Nat.mod_lt (2 ^ p) hnc
  have hr₂ := Nat.mod_lt (2 ^ p - 1) hd
  -- The doubled quotient and remainder of `2 ^ p` by `nc`.
  have h1 : (if nc - 2 ^ p % nc ≤ 2 ^ p % nc
        then (2 * (2 ^ p / nc) + 1, 2 * (2 ^ p % nc) - nc)
        else (2 * (2 ^ p / nc), 2 * (2 ^ p % nc)))
      = (2 ^ (p + 1) / nc, 2 ^ (p + 1) % nc) := by
    rw [hpow]
    split
    · obtain ⟨hq, hr⟩ := div_mod_two_mul_add_of_le (x := 2 ^ p) hnc (Nat.zero_le 1) (by omega)
      rw [hq, hr]
      rfl
    · obtain ⟨hq, hr⟩ := div_mod_two_mul_add_of_lt (x := 2 ^ p) (c := 0) hnc (by omega)
      rw [hq, hr, Nat.add_zero]
  unfold magicUnsignedStep unsignedStateAt
  simp only [h1]
  -- The multiplier doubles too, and once it needs the extra bit it keeps it.
  by_cases hcase : d - (2 ^ p - 1) % d ≤ (2 ^ p - 1) % d + 1
  · obtain ⟨hq, hr⟩ := div_mod_two_mul_add_of_le (x := 2 ^ p - 1) hd le_rfl (by omega)
    rw [if_pos hcase, hpow', hq, hr, ← Bool.decide_or]
    congr 1
    rw [decide_eq_decide]
    omega
  · obtain ⟨hq, hr⟩ := div_mod_two_mul_add_of_lt (x := 2 ^ p - 1) (c := 1) hd (by omega)
    rw [if_neg hcase, hpow', hq, hr, ← Bool.decide_or]
    congr 1
    rw [decide_eq_decide]
    omega

/-- A divisor of `width` bits whose quotients the loop is run for. -/
structure IsUnsignedDivisor (width d : Nat) : Prop where
  width_pos : 0 < width
  width_lt : width < 128
  three_le : 3 ≤ d
  lt : d < 2 ^ width

/-- What `magicUnsigned` returns stands for a multiplier `M` with
    `M * d = 2 ^ p + e` and a harmless error `e`. -/
structure UnsignedMagic.Spec (width d : Nat) (magic : UnsignedMagic) (p e M : Nat) : Prop where
  product : M * d = 2 ^ p + e
  error : magicBound (2 ^ width) d * e < 2 ^ p
  error_lt : e < d
  le_exponent : width ≤ p
  exponent_le : p ≤ 2 * width
  shift : magic.shift = p - width
  multiplier : M = magic.multiplier + if magic.add then 2 ^ width else 0
  multiplier_lt : magic.multiplier < 2 ^ width

section Unsigned

variable {width d : Nat}

theorem magicBound_eq_nc (h : IsUnsignedDivisor width d) :
    2 ^ width - 1 - (2 ^ width - 1 - d + 1) % d = magicBound (2 ^ width) d := by
  have h3 := h.three_le
  have hlt := h.lt
  have hsub : 2 ^ width - 1 - d + 1 = 2 ^ width - d := by omega
  have hmod : 2 ^ width % d = (2 ^ width - d) % d := Nat.mod_eq_sub_mod hlt.le
  unfold magicBound
  rw [hsub, hmod]

theorem magicBound_pos {t : Nat} (hd : 2 ≤ d) (hdt : d ≤ t) : 0 < magicBound t d := by
  have := le_magicBound_add_one (by omega) hdt
  omega

theorem magicUnsignedAgain_stateAt {nc p : Nat} (hnc : 0 < nc) :
    magicUnsignedAgain d width (unsignedStateAt nc d width p) = true ↔
      p < 2 * width ∧ 2 ^ p ≤ nc * (d - 1 - (2 ^ p - 1) % d) := by
  unfold magicUnsignedAgain unsignedStateAt
  rw [decide_eq_true_eq, le_mul_iff_div_mod hnc]

theorem succ_div_mul (hd : 0 < d) (p : Nat) :
    ((2 ^ p - 1) / d + 1) * d = 2 ^ p + (d - 1 - (2 ^ p - 1) % d) := by
  have hsplit := Nat.mod_add_div (2 ^ p - 1) d
  have hmod := Nat.mod_lt (2 ^ p - 1) hd
  have hpos := Nat.two_pow_pos p
  rw [Nat.add_mul, Nat.one_mul, Nat.mul_comm]
  omega

/-- The multiplier has at most one bit more than the word, since one round
    earlier the error was still too large. -/
theorem unsigned_multiplier_lt {p e nc M : Nat} (h : IsUnsignedDivisor width d)
    (hnc : nc < 2 ^ width) (hM : M * d = 2 ^ p + e) (he : e < d) (hwp : width ≤ p)
    (hprev : width < p → 2 ^ (p - 1) ≤ nc * (d - 1)) : M < 2 * 2 ^ width := by
  have h3 := h.three_le
  have hlt := h.lt
  apply Nat.lt_of_mul_lt_mul_right (a := d)
  rcases Nat.lt_or_ge width p with hlt' | hge
  · have hpow := two_pow_eq_two_mul (w := p) (by omega)
    have hd1 : nc * d = nc * (d - 1) + nc := by
      rw [← Nat.mul_succ]
      congr 1
      omega
    have hnc' : (nc + 1) * d ≤ 2 ^ width * d := Nat.mul_le_mul_right d (by omega)
    have := hprev hlt'
    rw [hM, Nat.mul_assoc]
    rw [Nat.add_mul, Nat.one_mul] at hnc'
    omega
  · have hpw : p = width := by omega
    have : 2 ^ width * 3 ≤ 2 ^ width * d := Nat.mul_le_mul_left _ h3
    rw [hM, hpw, Nat.mul_assoc]
    omega

theorem magicUnsigned_spec (h : IsUnsignedDivisor width d) :
    ∃ p e M, UnsignedMagic.Spec width d (magicUnsigned d width) p e M := by
  have h3 := h.three_le
  have hlt := h.lt
  have hw := h.width_pos
  have hd : 0 < d := by omega
  have hhalf := two_pow_eq_two_mul hw
  have hpos := Nat.two_pow_pos (width - 1)
  set nc := magicBound (2 ^ width) d with hncdef
  have hnc : 0 < nc := magicBound_pos (by omega) hlt.le
  have hnclt : nc < 2 ^ width := magicBound_lt (by omega)
  -- The loop starts in the state of exponent `width - 1`.
  have hstart : (⟨width - 1, 2 ^ (width - 1) / nc, 2 ^ (width - 1) - 2 ^ (width - 1) / nc * nc,
      (2 ^ (width - 1) - 1) / d, 2 ^ (width - 1) - 1 - (2 ^ (width - 1) - 1) / d * d, false⟩ :
        MagicState) = unsignedStateAt nc d width (width - 1) := by
    have hq := Nat.div_le_self (2 ^ (width - 1) - 1) d
    unfold unsignedStateAt
    congr 1
    · exact (Nat.mod_eq_sub_div_mul).symm
    · exact (Nat.mod_eq_sub_div_mul).symm
    · symm
      rw [decide_eq_false_iff_not]
      omega
  obtain ⟨p, hwp, hloop, hend, hbefore⟩ :=
    doWhile_eq_of_sequence (magicUnsignedStep nc d width) (magicUnsignedAgain d width)
      (unsignedStateAt nc d width) (width - 1) (2 * width)
      (fun p _ => magicUnsignedStep_stateAt hnc hd hw)
      ⟨2 * width, by omega, by omega, by
        rw [← Bool.not_eq_true, magicUnsignedAgain_stateAt hnc]
        omega⟩
  have hp2 : p ≤ 2 * width := by
    by_contra hgt
    have := (magicUnsignedAgain_stateAt hnc).mp (hbefore (2 * width) (by omega) (by omega))
    omega
  set e := d - 1 - (2 ^ p - 1) % d with hedef
  have he : e < d := by omega
  have herror : nc * e < 2 ^ p := by
    rw [← Bool.not_eq_true, magicUnsignedAgain_stateAt hnc] at hend
    rcases Nat.lt_or_ge p (2 * width) with hlt2 | hge2
    · exact Nat.lt_of_not_le fun hle => hend ⟨hlt2, hle⟩
    · -- At `2 * width` any error is harmless.
      have hp : p = width + width := by omega
      rw [hp, pow_add]
      exact Nat.mul_lt_mul'' hnclt (by omega)
  have hM := succ_div_mul hd p
  have hMlt : (2 ^ p - 1) / d + 1 < 2 * 2 ^ width := by
    refine unsigned_multiplier_lt h hnclt hM he (by omega) fun hlt' => ?_
    have := ((magicUnsignedAgain_stateAt hnc).mp (hbefore (p - 1) (by omega) (by omega))).2
    exact this.trans (Nat.mul_le_mul_left _ (Nat.sub_le _ _))
  have hmagic : magicUnsigned d width
      = ⟨((2 ^ p - 1) / d + 1) % 2 ^ width, p - width,
          decide (2 ^ width ≤ (2 ^ p - 1) / d + 1)⟩ := by
    unfold magicUnsigned
    simp only [maskToWidth_ones h.width_lt, magicBound_eq_nc h, ← hncdef, hstart, hloop,
      Nat.and_two_pow_sub_one_eq_mod]
    rfl
  refine ⟨p, e, (2 ^ p - 1) / d + 1, hM, herror, he, by omega, hp2, by rw [hmagic], ?_, ?_⟩
  · rw [hmagic]
    simp only [decide_eq_true_eq]
    split
    · rw [Nat.mod_eq_sub_mod ‹_›, Nat.mod_eq_of_lt (by omega)]
      omega
    · rw [Nat.mod_eq_of_lt (by omega), Nat.add_zero]
  · rw [hmagic]
    exact Nat.mod_lt _ (by omega)

namespace UnsignedMagic.Spec

variable {magic : UnsignedMagic} {p e M : Nat}

/-- The quotient the multiplier computes. -/
theorem div_eq (hs : Spec width d magic p e M) (h : IsUnsignedDivisor width d) {a : Nat}
    (ha : a < 2 ^ width) : a * M / 2 ^ p = a / d :=
  mul_div_eq_div (by have := h.three_le; omega) h.lt.le hs.product hs.error ha

/-- Without the fixup the shift stays inside the word. -/
theorem shift_lt (hs : Spec width d magic p e M) (h : IsUnsignedDivisor width d)
    (hadd : magic.add = false) : magic.shift < width := by
  rw [hs.shift]
  by_contra hge
  have hp : p = width + width := by
    have := hs.exponent_le
    have := hs.le_exponent
    omega
  have hM : M < 2 ^ width := by
    rw [hs.multiplier, hadd]
    exact hs.multiplier_lt
  -- Then `M * d` would be below `2 ^ p`.
  have hlt : M * d < 2 ^ width * 2 ^ width := Nat.mul_lt_mul'' hM h.lt
  have := hs.product
  rw [hp, pow_add] at this
  omega

/-- The fixup only happens with a positive shift. -/
theorem shift_pos (hs : Spec width d magic p e M) (h : IsUnsignedDivisor width d)
    (hadd : magic.add = true) : 0 < magic.shift := by
  rw [hs.shift]
  by_contra hzero
  have hp : p = width := by
    have := hs.le_exponent
    omega
  have hM : 2 ^ width ≤ M := by
    rw [hs.multiplier, hadd]
    exact Nat.le_add_left _ _
  have hge : 2 ^ width * 3 ≤ M * d := Nat.mul_le_mul hM h.three_le
  have hprod := hs.product
  have := hs.error_lt
  have := h.lt
  rw [hp] at hprod
  omega

end UnsignedMagic.Spec

end Unsigned

/-! ## `magicSigned` -/

/-- The loop variables of `magicSigned` when the exponent is `p`. -/
def signedStateAt (anc ad p : Nat) : MagicState :=
  ⟨p, 2 ^ p / anc, 2 ^ p % anc, 2 ^ p / ad, 2 ^ p % ad, false⟩

/-- One doubled quotient and remainder of the loop. -/
theorem double_two_pow_div_mod {n : Nat} (hn : 0 < n) (p : Nat) :
    (if n ≤ 2 * (2 ^ p % n) then (2 * (2 ^ p / n) + 1, 2 * (2 ^ p % n) - n)
      else (2 * (2 ^ p / n), 2 * (2 ^ p % n)))
      = (2 ^ (p + 1) / n, 2 ^ (p + 1) % n) := by
  have hpow : 2 ^ (p + 1) = 2 * 2 ^ p + 0 := by rw [pow_succ, Nat.mul_comm, Nat.add_zero]
  rw [hpow]
  split
  · obtain ⟨hq, hr⟩ := div_mod_two_mul_add_of_le (x := 2 ^ p) hn (Nat.zero_le 1) (by omega)
    rw [hq, hr]
    rfl
  · obtain ⟨hq, hr⟩ := div_mod_two_mul_add_of_lt (x := 2 ^ p) (c := 0) hn (by omega)
    rw [hq, hr, Nat.add_zero]

theorem magicSignedStep_stateAt {anc ad : Nat} (hanc : 0 < anc) (had : 0 < ad) (p : Nat) :
    magicSignedStep anc ad (signedStateAt anc ad p) = signedStateAt anc ad (p + 1) := by
  unfold magicSignedStep signedStateAt
  simp only [double_two_pow_div_mod hanc, double_two_pow_div_mod had]

theorem magicSignedAgain_stateAt {anc ad p : Nat} (hanc : 0 < anc) :
    magicSignedAgain ad (signedStateAt anc ad p) = true ↔
      2 ^ p ≤ anc * (ad - 2 ^ p % ad) := by
  unfold magicSignedAgain signedStateAt
  rw [decide_eq_true_eq, le_mul_iff_div_mod hanc]

/-- A divisor the signed loop is run for: not 0, ±1, MIN or a power of two. -/
structure IsSignedDivisor (width : Nat) (d : Int) : Prop where
  two_le : 2 ≤ width
  width_lt : width < 128
  not_pow : isPowerOfTwo d.natAbs = false
  three_le : 3 ≤ d.natAbs
  lt : d.natAbs < 2 ^ (width - 1)

/-- The number of dividends of `d`'s sign, from 0 on: what `b * sign d` stays
    below. -/
def signedLimit (width : Nat) (d : Int) : Nat := 2 ^ (width - 1) + if d < 0 then 1 else 0

/-- The multiplier with the sign of the divisor. -/
def signedMultiplier (d : Int) (M : Nat) : Int := if d < 0 then -M else M

/-- What `magicSigned` returns stands for a multiplier `M` of `|d|`, negated
    for a negative divisor. -/
structure SignedMagic.Spec (width : Nat) (d : Int) (magic : SignedMagic) (p e M : Nat) : Prop where
  product : M * d.natAbs = 2 ^ p + e
  error : magicBound (signedLimit width d) d.natAbs * e < 2 ^ p
  error_pos : 0 < e
  error_le : e ≤ d.natAbs
  le_exponent : width ≤ p
  exponent_lt : p < 2 * width - 1
  shift : magic.shift = p - width
  multiplier_pos : 0 < M
  multiplier_lt : M < 2 ^ width
  multiplier : magic.multiplier = toSigned width (wrap width (signedMultiplier d M))

section Signed

variable {width : Nat} {d : Int}

theorem signedLimit_le (width : Nat) (d : Int) : signedLimit width d ≤ 2 ^ (width - 1) + 1 := by
  unfold signedLimit
  split <;> omega

theorem natAbs_le_signedLimit (h : IsSignedDivisor width d) : d.natAbs ≤ signedLimit width d := by
  have := h.lt
  unfold signedLimit
  omega

/-- The divisor bits select the limit. -/
theorem limit_eq (h : IsSignedDivisor width d) :
    2 ^ (width - 1) + (wrap 128 d &&& (2 ^ width - 1)) / 2 ^ (width - 1) = signedLimit width d := by
  have h2 := h.two_le
  have hlt := h.lt
  have hhalf := two_pow_eq_two_mul (w := width) (by omega)
  have hpos := Nat.two_pow_pos (width - 1)
  have hcast : ((2 ^ (width - 1) : Nat) : Int) = 2 ^ (width - 1) := natCast_two_pow _
  have hlo : -2 ^ (width - 1) ≤ d := by
    rw [← hcast]
    omega
  have hhi : d < 2 ^ (width - 1) := by
    rw [← hcast]
    omega
  have hwrap : toSigned width (wrap width d) = d := toSigned_wrap (by omega) hlo hhi
  have hsign := toSigned_neg_iff (w := width) (by omega) (wrap_lt width d)
  have hwlt := wrap_lt width d
  rw [hwrap] at hsign
  unfold signedLimit
  rw [Nat.and_two_pow_sub_one_eq_mod, wrap_mod_two_pow h.width_lt.le]
  congr 1
  split
  · have := hsign.mp ‹_›
    apply Nat.div_eq_of_lt_le <;> omega
  · apply Nat.div_eq_of_lt
    omega

theorem succ_two_pow_div_mul {ad : Nat} (had : 0 < ad) (p : Nat) :
    (2 ^ p / ad + 1) * ad = 2 ^ p + (ad - 2 ^ p % ad) := by
  have hsplit := Nat.mod_add_div (2 ^ p) ad
  have hmod := Nat.mod_lt (2 ^ p) had
  rw [Nat.add_mul, Nat.one_mul, Nat.mul_comm]
  omega

/-- The multiplier fits the word, since one round earlier the error was still
    too large. -/
theorem signed_multiplier_lt {p e anc M ad : Nat} (h3 : 3 ≤ ad) (hlt : ad < 2 ^ (width - 1))
    (hw : 0 < width) (hanc : anc ≤ 2 ^ (width - 1)) (hM : M * ad = 2 ^ p + e) (he : e < ad)
    (hwp : width ≤ p) (hprev : width < p → 2 ^ (p - 1) ≤ anc * (ad - 1)) : M < 2 ^ width := by
  have hhalf := two_pow_eq_two_mul hw
  apply Nat.lt_of_mul_lt_mul_right (a := ad)
  rcases Nat.lt_or_ge width p with hlt' | hge
  · have hpow := two_pow_eq_two_mul (w := p) (by omega)
    have hprod := hprev hlt'
    have hmul : anc * (ad - 1) ≤ 2 ^ (width - 1) * (ad - 1) := Nat.mul_le_mul_right _ hanc
    have hsub : 2 ^ (width - 1) * ad = 2 ^ (width - 1) * (ad - 1) + 2 ^ (width - 1) := by
      rw [← Nat.mul_succ]
      congr 1
      omega
    rw [hM, hhalf, Nat.mul_assoc]
    omega
  · have hpw : p = width := by omega
    have : 2 ^ width * 3 ≤ 2 ^ width * ad := Nat.mul_le_mul_left _ h3
    rw [hM, hpw]
    omega

/-- The loop of the source, which has no bound, ends by exponent
    `2 * width - 2`, and where it ends the error is harmless. -/
theorem magicSigned_loop {ad t : Nat} (h2 : 2 ≤ width) (hpow : isPowerOfTwo ad = false)
    (h3 : 3 ≤ ad) (hlt : ad < 2 ^ (width - 1)) (hadt : ad ≤ t) (ht : t ≤ 2 ^ (width - 1) + 1) :
    ∃ p e, doWhile (magicSignedStep (magicBound t ad) ad) (magicSignedAgain ad) (2 * width)
        (signedStateAt (magicBound t ad) ad (width - 1)) = signedStateAt (magicBound t ad) ad p ∧
      (2 ^ p / ad + 1) * ad = 2 ^ p + e ∧ magicBound t ad * e < 2 ^ p ∧ 0 < e ∧ e ≤ ad ∧
      width ≤ p ∧ p < 2 * width - 1 ∧ 2 ^ p / ad + 1 < 2 ^ width := by
  have had : 0 < ad := by omega
  have hanc : 0 < magicBound t ad := magicBound_pos (by omega) hadt
  have hanclt : magicBound t ad < t := magicBound_lt (by omega)
  have hexit : magicSignedAgain ad (signedStateAt (magicBound t ad) ad (2 * width - 2)) = false := by
    rw [← Bool.not_eq_true, magicSignedAgain_stateAt hanc, Nat.not_le]
    have hexp : 2 * width - 2 = (width - 1) + (width - 1) := by omega
    have hlt' : ad - 2 ^ (2 * width - 2) % ad < 2 ^ (width - 1) := by omega
    rw [hexp, pow_add] at *
    exact Nat.mul_lt_mul_of_le_of_lt (by omega) hlt' (Nat.two_pow_pos _)
  obtain ⟨p, hwp, hloop, hend, hbefore⟩ :=
    doWhile_eq_of_sequence (magicSignedStep (magicBound t ad) ad) (magicSignedAgain ad)
      (signedStateAt (magicBound t ad) ad) (width - 1) (2 * width)
      (fun p _ => magicSignedStep_stateAt hanc had p)
      ⟨2 * width - 2, by omega, by omega, hexit⟩
  have hp2 : p ≤ 2 * width - 2 := by
    by_contra hgt
    rw [hbefore (2 * width - 2) (by omega) (by omega)] at hexit
    cases hexit
  have hmod := Nat.mod_lt (2 ^ p) had
  have hmodpos := two_pow_mod_pos hpow p
  have herror : magicBound t ad * (ad - 2 ^ p % ad) < 2 ^ p := by
    rw [← Bool.not_eq_true, magicSignedAgain_stateAt hanc] at hend
    omega
  have hM := succ_two_pow_div_mul had p
  have hMlt : 2 ^ p / ad + 1 < 2 ^ width := by
    apply signed_multiplier_lt h3 hlt (by omega) (by omega : magicBound t ad ≤ 2 ^ (width - 1)) hM
      (by omega) (by omega)
    intro hlt'
    have hagain := (magicSignedAgain_stateAt hanc).mp (hbefore (p - 1) (by omega) (by omega))
    have hpos := two_pow_mod_pos hpow (p - 1)
    exact hagain.trans (Nat.mul_le_mul_left _ (by omega))
  exact ⟨p, _, hloop, hM, herror, by omega, by omega, by omega, by omega, hMlt⟩

/-- Negating the multiplier in `u128` and masking it is negating it in the
    word. -/
theorem negated_multiplier {M : Nat} (hw : width < 128) :
    wrap 128 (((2 ^ width - 1 : Nat) : Int) - M + 1) % 2 ^ width = wrap width (-(M : Int)) := by
  rw [wrap_mod_two_pow hw.le, wrap_eq_wrap_iff]
  have hpos := Nat.two_pow_pos width
  have hcast : ((2 ^ width - 1 : Nat) : Int) = 2 ^ width - 1 := by
    rw [Nat.cast_sub hpos, natCast_two_pow]
    rfl
  rw [hcast]
  apply Int.ModEq.symm
  rw [Int.modEq_iff_dvd]
  exact ⟨1, by ring⟩

theorem magicSigned_spec (h : IsSignedDivisor width d) :
    ∃ p e M, SignedMagic.Spec width d (magicSigned d width) p e M := by
  have h2 := h.two_le
  have hhalf := two_pow_eq_two_mul (w := width) (by omega)
  obtain ⟨p, e, hloop, hM, herror, he, hele, hwp, hp, hMlt⟩ :=
    magicSigned_loop h2 h.not_pow h.three_le h.lt (natAbs_le_signedLimit h) (signedLimit_le width d)
  have hmagic : magicSigned d width
      = ⟨toSigned width (wrap width (signedMultiplier d (2 ^ p / d.natAbs + 1))), p - width⟩ := by
    have hadlt : d.natAbs < 2 ^ width := by
      have := h.lt
      omega
    have hlimit := limit_eq h
    rw [Nat.and_two_pow_sub_one_eq_mod] at hlimit
    have hstart : (⟨width - 1, 2 ^ (width - 1) / magicBound (signedLimit width d) d.natAbs,
        2 ^ (width - 1) % magicBound (signedLimit width d) d.natAbs, 2 ^ (width - 1) / d.natAbs,
        2 ^ (width - 1) % d.natAbs, false⟩ : MagicState)
        = signedStateAt (magicBound (signedLimit width d) d.natAbs) d.natAbs (width - 1) := rfl
    have hbound : signedLimit width d - 1 - signedLimit width d % d.natAbs
        = magicBound (signedLimit width d) d.natAbs := rfl
    unfold magicSigned
    simp only [maskToWidth_ones h.width_lt, Nat.and_two_pow_sub_one_eq_mod,
      Nat.mod_eq_of_lt hadlt, hlimit, hbound, ← Nat.mod_eq_sub_div_mul, hstart, hloop]
    simp only [signedStateAt, Nat.mod_eq_of_lt hMlt]
    rw [signExtend_eq (by omega) h.width_lt]
    congr 2
    unfold signedMultiplier
    split
    · rw [negated_multiplier h.width_lt, Nat.mod_eq_of_lt (wrap_lt _ _)]
    · rw [Nat.mod_eq_of_lt hMlt, wrap_natCast_of_lt hMlt]
  exact ⟨p, e, 2 ^ p / d.natAbs + 1, hM, herror, he, hele, hwp, hp, by rw [hmagic],
    Nat.succ_pos _, hMlt, by rw [hmagic]⟩

namespace SignedMagic.Spec

variable {magic : SignedMagic} {p e M : Nat}

/-- The word either holds the multiplier or is off by `2 ^ width`, and then it
    has the wrong sign. -/
theorem multiplier_cases (hs : Spec width d magic p e M) (h : IsSignedDivisor width d) :
    (magic.multiplier = signedMultiplier d M ∧
      (0 < d → 0 ≤ magic.multiplier) ∧ (d < 0 → magic.multiplier ≤ 0)) ∨
    (0 < d ∧ magic.multiplier < 0 ∧ magic.multiplier = signedMultiplier d M - 2 ^ width) ∨
    (d < 0 ∧ 0 < magic.multiplier ∧ magic.multiplier = signedMultiplier d M + 2 ^ width) := by
  have hw : 0 < width := by
    have := h.two_le
    omega
  have h3 := h.three_le
  have hM := hs.multiplier_lt
  have hM0 := hs.multiplier_pos
  have hcast := natCast_two_pow width
  have hhalf := two_pow_eq_two_mul hw
  have hpos := Nat.two_pow_pos (width - 1)
  rw [hs.multiplier]
  unfold signedMultiplier
  by_cases hd : d < 0
  · have hwrap : wrap width (-(M : Int)) = 2 ^ width - M := by
      apply wrap_eq_of_modEq (by omega)
      rw [Int.modEq_iff_dvd, Nat.cast_sub hM.le, hcast]
      exact ⟨-1, by ring⟩
    rw [if_pos hd, hwrap]
    rcases Nat.lt_or_ge (2 ^ width - M) (2 ^ (width - 1)) with hlt | hge
    · rw [toSigned_of_lt_half hw hlt]
      omega
    · rw [toSigned_of_half_le hw hge (by omega)]
      omega
  · rw [if_neg hd, wrap_natCast_of_lt hM]
    rcases Nat.lt_or_ge M (2 ^ (width - 1)) with hlt | hge
    · rw [toSigned_of_lt_half hw hlt]
      omega
    · rw [toSigned_of_half_le hw hge hM]
      omega

/-- A dividend of the divisor's sign. -/
theorem mul_ediv_eq (hs : Spec width d magic p e M) (h : IsSignedDivisor width d) {c : Nat}
    (hc : c < signedLimit width d) : (c : Int) * M / 2 ^ p = ((c / d.natAbs : Nat) : Int) := by
  have had : 0 < d.natAbs := by
    have := h.three_le
    omega
  rw [← mul_div_eq_div had (natAbs_le_signedLimit h) hs.product hs.error hc]
  push_cast
  rfl

/-- A dividend of the other sign. -/
theorem neg_mul_ediv_eq (hs : Spec width d magic p e M) (h : IsSignedDivisor width d) {c : Nat}
    (h0 : 0 < c) (hc : c ≤ 2 ^ (width - 1)) (hc' : d < 0 → c < 2 ^ (width - 1)) :
    -((c : Int) * M) / 2 ^ p = -((c / d.natAbs : Nat) : Int) - 1 := by
  have h2 := h.two_le
  have had : 0 < d.natAbs := by
    have := h.three_le
    omega
  rw [← natCast_two_pow p]
  apply Lib.neg_mul_ediv_eq had (Nat.two_pow_pos p) h0 hs.error_pos hs.product
  rcases Nat.lt_or_ge c (signedLimit width d) with hlt | hge
  · exact (mul_add_lt_of_bound had (natAbs_le_signedLimit h) hs.error hlt).le
  · -- Only MIN, divided by a positive divisor, reaches the limit.
    have hd : ¬ d < 0 := by
      intro hneg
      have := hc' hneg
      unfold signedLimit at hge
      omega
    have hlim : signedLimit width d = 2 ^ (width - 1) := by
      unfold signedLimit
      rw [if_neg hd, Nat.add_zero]
    obtain rfl : c = 2 ^ (width - 1) := by omega
    have hwp := hs.le_exponent
    apply mul_add_le_of_dvd (S := 2 ^ (p - (width - 1))) had (Nat.two_pow_pos _) _ hs.product
      hs.error_le
    rw [← pow_add]
    congr 1
    omega

/-- The magic product, with its sign bit added, is the truncated quotient. -/
theorem tdiv_eq (hs : Spec width d magic p e M) (h : IsSignedDivisor width d) {A : Int}
    (hA : InRange true width A) :
    A * signedMultiplier d M / 2 ^ p + (if A * signedMultiplier d M / 2 ^ p < 0 then 1 else 0)
      = A.tdiv d := by
  have h3 := h.three_le
  have hcast := natCast_two_pow (width - 1)
  obtain ⟨hlo, hhi⟩ := hA
  have hposcase : ∀ c : Nat, c < signedLimit width d →
      (c : Int) * M / 2 ^ p + (if (c : Int) * M / 2 ^ p < 0 then 1 else 0)
        = ((c / d.natAbs : Nat) : Int) := by
    intro c hc
    rw [hs.mul_ediv_eq h hc, if_neg (Int.natCast_nonneg _).not_gt, add_zero]
  have hnegcase : ∀ c : Nat, 0 < c → c ≤ 2 ^ (width - 1) → (d < 0 → c < 2 ^ (width - 1)) →
      -((c : Int) * M) / 2 ^ p + (if -((c : Int) * M) / 2 ^ p < 0 then 1 else 0)
        = -((c / d.natAbs : Nat) : Int) := by
    intro c h0 hc hc'
    have hq := Int.natCast_nonneg (c / d.natAbs)
    rw [hs.neg_mul_ediv_eq h h0 hc hc', if_pos (by linarith), sub_add_cancel]
  unfold signedMultiplier
  by_cases hd : d < 0
  · obtain ⟨ad, rfl⟩ : ∃ ad : Nat, d = -(ad : Int) := ⟨d.natAbs, by omega⟩
    have hlim : signedLimit width (-(ad : Int)) = 2 ^ (width - 1) + 1 := by
      unfold signedLimit
      rw [if_pos hd]
    rw [Int.natAbs_neg, Int.natAbs_natCast] at *
    rw [if_pos hd]
    rcases lt_or_ge 0 A with hpos | hneg
    · obtain ⟨c, rfl⟩ : ∃ c : Nat, A = c := ⟨A.natAbs, by omega⟩
      rw [mul_neg, hnegcase c (by omega) (by omega) (by omega), Int.tdiv_neg, Int.ofNat_tdiv]
    · obtain ⟨c, rfl⟩ : ∃ c : Nat, A = -(c : Int) := ⟨A.natAbs, by omega⟩
      rw [neg_mul_neg, hposcase c (by omega), Int.neg_tdiv_neg, Int.ofNat_tdiv]
  · obtain ⟨ad, rfl⟩ : ∃ ad : Nat, d = ad := ⟨d.natAbs, by omega⟩
    have hlim : signedLimit width (ad : Int) = 2 ^ (width - 1) := by
      unfold signedLimit
      rw [if_neg hd, Nat.add_zero]
    rw [Int.natAbs_natCast] at *
    rw [if_neg hd]
    rcases lt_or_ge A 0 with hneg | hpos
    · obtain ⟨c, rfl⟩ : ∃ c : Nat, A = -(c : Int) := ⟨A.natAbs, by omega⟩
      rw [neg_mul, hnegcase c (by omega) (by omega) (by omega), Int.neg_tdiv, Int.ofNat_tdiv]
    · obtain ⟨c, rfl⟩ : ∃ c : Nat, A = c := ⟨A.natAbs, by omega⟩
      rw [hposcase c (by omega), Int.ofNat_tdiv]

end SignedMagic.Spec

end Signed

end Crabbit.Llvm
