/-
  Crabbit.Isel.I128Sound

  The sequences on pairs of words compute the operation on 128 bits.

  Each sequence is followed instruction by instruction; what is left is an
  equation between the halves of the result and the words in its registers,
  from the arithmetic of wide words.
-/

import Crabbit.Isel.I128

namespace Crabbit.Isel

open Crabbit.Lib
open Crabbit.Llvm (ICmpPredicate IntBinOp Ty evalBin evalICmp)

variable {T : Target} {M : Machine T} {start : Start M} {facts : List (Fact T)}
  {compared : Option (BitVec 64 × BitVec 64)}

/-! ## Results in pairs -/

/-- More facts than `facts`. -/
class Extends (facts facts' : List (Fact T)) : Prop where
  subset : facts ⊆ facts'

instance Extends.refl (facts : List (Fact T)) : Extends facts facts := ⟨List.Subset.refl _⟩

instance Extends.cons (f : Fact T) (facts facts' : List (Fact T)) [h : Extends facts facts'] :
    Extends facts (f :: facts') := ⟨List.subset_cons_of_subset _ h.subset⟩

instance (priority := high) Extends.known (a : T.Register) (x : BitVec 64)
    (facts facts' : List (Fact T)) [ha : Knows facts' a x] [h : Extends facts facts'] :
    Extends (⟨a, x⟩ :: facts) facts' := ⟨List.cons_subset.mpr ⟨ha.mem, h.subset⟩⟩

/-- After the selection the pair holds `x`, besides what was known. -/
def HoldsWide (start : Start M) (facts : List (Fact T)) (x : BitVec 128) (pair : Pair T)
    (sel : Selection T) : Prop :=
  ∃ lo hi, Known M start [] (⟨pair.1, lo⟩ :: ⟨pair.2, hi⟩ :: facts) none sel ∧ wide lo hi = x

theorem HoldsWide.weaken {facts' : List (Fact T)} {x : BitVec 128} {pair : Pair T}
    {sel : Selection T} (h : HoldsWide start facts' x pair sel) (hsub : facts ⊆ facts') :
    HoldsWide start facts x pair sel := by
  obtain ⟨lo, hi, hknown, hwide⟩ := h
  exact ⟨lo, hi, hknown.forget (List.cons_subset_cons _ (List.cons_subset_cons _ hsub)), hwide⟩

/-- After the selection the register holds the truth value, besides what was
    known. -/
def HoldsBit (start : Start M) (facts : List (Fact T)) (b : Bool) (r : T.Register)
    (sel : Selection T) : Prop :=
  Known M start [] (⟨r, bit b⟩ :: facts) none sel

section Results

variable {facts' : List (Fact T)} {a b : T.Register} {x y : BitVec 64}

theorem yields_pair [Extends facts facts'] [Knows facts' a x] [Knows facts' b y]
    {z : BitVec 128} (h : wide x y = z) :
    Yields (Known M start [] facts' compared) (Pure.pure (a, b)) (HoldsWide start facts z) := by
  have hsub : Extends (⟨a, x⟩ :: ⟨b, y⟩ :: facts) facts' := inferInstance
  exact Yields.pure fun sel hknown => ⟨x, y, hknown.forget hsub.subset, h⟩

theorem yields_emitCompareBit {predicate : ICmpPredicate} [Knows facts a x] [Knows facts b y] :
    Yields (Known M start [] facts compared) (Lowering.emitCompareBit a b predicate)
      (fun d => Known M start [] (⟨d, bit (compares predicate x y)⟩ :: facts) (some (x, y))) :=
  yields_cmp.bind fun _ => yields_freshVreg.bind fun _ => yields_cset.bind fun _ => .pure fun _ h => h

theorem Known.one {sel : Selection T} (h : Known M start [] facts' compared sel)
    [Extends facts facts'] [Knows facts' a x] : Known M start [] (⟨a, x⟩ :: facts) none sel := by
  have hsub : Extends (⟨a, x⟩ :: facts) facts' := inferInstance
  exact h.forget hsub.subset

theorem Known.three {c : T.Register} {z : BitVec 64} {sel : Selection T}
    (h : Known M start [] facts' compared sel) [Extends facts facts'] [Knows facts' a x]
    [Knows facts' b y] [Knows facts' c z] :
    Known M start [] (⟨a, x⟩ :: ⟨b, y⟩ :: ⟨c, z⟩ :: facts) none sel := by
  have hsub : Extends (⟨a, x⟩ :: ⟨b, y⟩ :: ⟨c, z⟩ :: facts) facts' := inferInstance
  exact h.forget hsub.subset

/-- A register that is there already. -/
theorem yields_existing [ha : Knows facts a x] :
    Yields (Known M start [] facts compared) (Pure.pure a)
      (fun d => Known M start [] (⟨d, x⟩ :: facts) none) :=
  Yields.pure fun _ h => h.forget (List.cons_subset.mpr ⟨ha.mem, List.Subset.refl _⟩)

end Results

/-! ## Arithmetic -/

section Arithmetic

variable {l r : Pair T} {ll lh rl rh : BitVec 64} [Knows facts l.1 ll] [Knows facts l.2 lh]
  [Knows facts r.1 rl] [Knows facts r.2 rh]

theorem bit_compares_ult (x y : BitVec 64) : bit (compares .ult x y) = if x.ult y then 1 else 0 := by
  rw [bit, compares, evalICmp, BitVec.ult]

theorem yields_lowerAdd128 (hop : M.has .add) :
    Yields (Known M start [] facts compared) (lowerAdd128 l r)
      (HoldsWide start facts (wide ll lh + wide rl rh)) := by
  refine (yields_emitBinary hop).bind fun lo => yields_emitCompareBit.bind fun carry =>
    (yields_emitBinary hop).bind fun hiSum => (yields_emitBinary hop).bind fun hi => yields_pair ?_
  rw [wide_add, bit_compares_ult]
  rfl

theorem yields_lowerSub128 (hop : M.has .sub) :
    Yields (Known M start [] facts compared) (lowerSub128 l r)
      (HoldsWide start facts (wide ll lh - wide rl rh)) := by
  refine yields_emitCompareBit.bind fun borrow => (yields_emitBinary hop).bind fun lo =>
    (yields_emitBinary hop).bind fun hiSub => (yields_emitBinary hop).bind fun hi => yields_pair ?_
  rw [wide_sub, bit_compares_ult]
  rfl

theorem yields_lowerMul128 (hmul : M.has .mul) (humulh : M.has .umulh) (hadd : M.has .add) :
    Yields (Known M start [] facts compared) (lowerMul128 l r)
      (HoldsWide start facts (wide ll lh * wide rl rh)) := by
  refine (yields_emitBinary hmul).bind fun lo => (yields_emitBinary humulh).bind fun highLow =>
    (yields_emitBinary hmul).bind fun crossA => (yields_emitBinary hmul).bind fun crossB =>
    (yields_emitBinary hadd).bind fun hiPartial => (yields_emitBinary hadd).bind fun hi =>
    yields_pair ?_
  rw [wide_mul]
  rfl

/-- An operation that works bit by bit works half by half. -/
theorem yields_lowerLogic128 {op : WordOp} (hop : M.has op) {z : BitVec 128}
    (h : wide (op.eval ll rl) (op.eval lh rh) = z) :
    Yields (Known M start [] facts compared) (lowerLogic128 op l r) (HoldsWide start facts z) :=
  (yields_emitBinary hop).bind fun _ => (yields_emitBinary hop).bind fun _ => yields_pair h

end Arithmetic

/-! ## Shifts by a constant -/

theorem toNat_amount {s : Nat} (h : s < 64) : (BitVec.ofNat 64 s).toNat % 64 = s := by
  rw [BitVec.toNat_ofNat, Nat.mod_eq_of_lt (Nat.lt_trans h (by decide)), Nat.mod_eq_of_lt h]

/-- What an operation does with a small constant amount. -/
theorem eval_amount {s : Nat} (h : s < 64) (a : BitVec 64) :
    WordOp.shl.eval a (BitVec.ofNat 64 s) = a <<< s ∧
    WordOp.lsr.eval a (BitVec.ofNat 64 s) = a >>> s ∧
    WordOp.asr.eval a (BitVec.ofNat 64 s) = a.sshiftRight s := by
  refine ⟨?_, ?_, ?_⟩ <;> rw [WordOp.eval, toNat_amount h]

/-- A shift to the right, of one sign or the other. -/
def shiftRight {n : Nat} (signed : Bool) (x : BitVec n) (s : Nat) : BitVec n :=
  if signed then x.sshiftRight s else x >>> s

theorem shiftRight_zero {n : Nat} (signed : Bool) (x : BitVec n) : shiftRight signed x 0 = x := by
  cases signed
  · exact BitVec.ushiftRight_zero x
  · exact BitVec.sshiftRight_zero

theorem eval_hiShift {s : Nat} (h : s < 64) (signed : Bool) (a : BitVec 64) :
    (hiShift signed).eval a (BitVec.ofNat 64 s) = shiftRight signed a s := by
  cases signed
  · exact (eval_amount h a).2.1
  · exact (eval_amount h a).2.2

section Shifts

variable {l : Pair T} {ll lh : BitVec 64} [Knows facts l.1 ll] [Knows facts l.2 lh]

/-- Right by less than a word. -/
theorem wide_shiftRight_of_lt {s : Nat} (h0 : 0 < s) (h : s < 64) (signed : Bool) :
    shiftRight signed (wide ll lh) s =
      wide (ll >>> s ||| lh <<< (64 - s)) (shiftRight signed lh s) := by
  cases signed
  · exact wide_lshr_of_lt ll lh h0 h
  · exact wide_ashr_of_lt ll lh h0 h

/-- Right by a word or more: what is left is the sign. -/
theorem wide_shiftRight_of_ge {s : Nat} (h : 64 ≤ s) (signed : Bool) :
    shiftRight signed (wide ll lh) s =
      wide (shiftRight signed lh (s - 64)) (if signed then lh.sshiftRight 63 else 0) := by
  cases signed
  · exact wide_lshr_of_ge ll lh h
  · exact wide_ashr_of_ge ll lh (by decide) h

theorem has_hiShift {signed : Bool} (hlsr : M.has .lsr) (hasr : signed = true → M.has .asr) :
    M.has (hiShift signed) := by
  cases signed
  · exact hlsr
  · exact hasr rfl

theorem yields_shiftRightBeyond {r : T.Register} {x : BitVec 64} [Knows facts r x] {shift : Nat}
    {signed : Bool} (hop : M.has (hiShift signed)) (h : shift < 128) :
    Yields (Known M start [] facts compared) (shiftRightBeyond r shift signed)
      (fun d => Known M start [] (⟨d, shiftRight signed x (shift - 64)⟩ :: facts) none) := by
  rw [shiftRightBeyond]
  by_cases h64 : shift = 64
  · rw [if_pos h64, h64, Nat.sub_self, shiftRight_zero]
    exact yields_existing
  · rw [if_neg h64, ← eval_hiShift (show shift - 64 < 64 by omega)]
    exact yields_emitConstant.bind fun shiftReg => (yields_emitBinary hop).weaken
      fun d sel hd => hd.forget (List.cons_subset_cons _ (List.subset_cons_self _ _))

theorem yields_signHalf {r : T.Register} {x : BitVec 64} [Knows facts r x] {signed : Bool}
    (hasr : signed = true → M.has .asr) :
    Yields (Known M start [] facts compared) (signHalf r signed)
      (fun d => Known M start [] (⟨d, if signed then x.sshiftRight 63 else 0⟩ :: facts) none) := by
  cases signed
  · exact yields_emitConstant
  · have heval := (eval_amount (show 63 < 64 by decide) x).2.2
    rw [if_pos rfl, ← heval]
    exact yields_emitConstant.bind fun sixtyThree => (yields_emitBinary (hasr rfl)).weaken
      fun d sel hd => hd.forget (List.cons_subset_cons _ (List.subset_cons_self _ _))

theorem yields_lowerShiftRight128 {shift : Nat} (signed : Bool) (hlsr : M.has .lsr)
    (hshl : M.has .shl) (hor : M.has .or) (hasr : signed = true → M.has .asr) (h : shift < 128) :
    Yields (Known M start [] facts compared) (lowerShiftRight128 l shift signed)
      (HoldsWide start facts (shiftRight signed (wide ll lh) shift)) := by
  have hhi := has_hiShift hlsr hasr
  rw [lowerShiftRight128]
  by_cases h0 : shift = 0
  · rw [if_pos h0, h0, shiftRight_zero]
    exact yields_pair rfl
  rw [if_neg h0]
  by_cases h64 : shift < 64
  · rw [if_pos h64]
    refine yields_emitConstant.bind fun shiftReg => (yields_emitBinary hlsr).bind fun loPart =>
      yields_emitConstant.bind fun invShift => (yields_emitBinary hshl).bind fun hiPart =>
      (yields_emitBinary hor).bind fun newLo => yields_freshVreg.bind fun newHi =>
      yields_emitConstant.bind fun shiftReg' => (yields_binary hhi).bind fun _ => yields_pair ?_
    rw [wide_shiftRight_of_lt (Nat.pos_of_ne_zero h0) h64, (eval_amount h64 ll).2.1,
      (eval_amount (by omega) lh).1, eval_hiShift h64]
    rfl
  · rw [if_neg h64, wide_shiftRight_of_ge (Nat.le_of_not_lt h64)]
    exact (yields_shiftRightBeyond hhi h).bind fun newLo => (yields_signHalf hasr).bind fun newHi =>
      yields_pair rfl

theorem yields_shiftLeftBeyond {r : T.Register} {x : BitVec 64} [Knows facts r x] {shift : Nat}
    (hshl : M.has .shl) (h : shift < 128) :
    Yields (Known M start [] facts compared) (shiftLeftBeyond r shift)
      (fun d => Known M start [] (⟨d, x <<< (shift - 64)⟩ :: facts) none) := by
  rw [shiftLeftBeyond]
  by_cases h64 : shift = 64
  · rw [if_pos h64, h64, Nat.sub_self, BitVec.shiftLeft_zero]
    exact yields_existing
  · rw [if_neg h64, ← (eval_amount (show shift - 64 < 64 by omega) x).1]
    exact yields_freshVreg.bind fun shifted => yields_emitConstant.bind fun shiftReg =>
      (yields_binary hshl).bind fun _ => Yields.pure
        fun sel hd => hd.forget (List.cons_subset_cons _ (List.subset_cons_self _ _))

theorem yields_lowerShiftLeft128 {shift : Nat} (hlsr : M.has .lsr) (hshl : M.has .shl)
    (hor : M.has .or) (h : shift < 128) :
    Yields (Known M start [] facts compared) (lowerShiftLeft128 l shift)
      (HoldsWide start facts (wide ll lh <<< shift)) := by
  rw [lowerShiftLeft128]
  by_cases h0 : shift = 0
  · rw [if_pos h0, h0, BitVec.shiftLeft_zero]
    exact yields_pair rfl
  rw [if_neg h0]
  by_cases h64 : shift < 64
  · rw [if_pos h64]
    refine yields_emitConstant.bind fun shiftReg => (yields_emitBinary hshl).bind fun newLo =>
      yields_emitConstant.bind fun invShift => (yields_emitBinary hlsr).bind fun carry =>
      yields_freshVreg.bind fun hiPart => yields_emitConstant.bind fun shiftReg' =>
      (yields_binary hshl).bind fun _ => (yields_emitBinary hor).bind fun newHi => yields_pair ?_
    rw [wide_shl_of_lt ll lh (Nat.pos_of_ne_zero h0) h64, (eval_amount h64 ll).1,
      (eval_amount (show 64 - shift < 64 by omega) ll).2.1, (eval_amount h64 lh).1]
    rfl
  · rw [if_neg h64]
    refine yields_emitConstant.bind fun newLo => (yields_shiftLeftBeyond hshl h).bind fun newHi =>
      yields_pair ?_
    exact (wide_shl_of_ge ll lh (Nat.le_of_not_lt h64)).symm

end Shifts

/-! ## Shifts by a register -/

/-- All ones or all zeros. -/
def mask (b : Bool) : BitVec 64 := if b then BitVec.allOnes 64 else 0

theorem zero_sub_bit (b : Bool) : BitVec.ofNat 64 0 - bit b = mask b := by
  cases b <;> decide

theorem and_mask (x : BitVec 64) (b : Bool) : x &&& mask b = if b then x else 0 := by
  cases b
  · exact BitVec.and_zero
  · exact BitVec.and_allOnes

theorem select_mask (x y : BitVec 64) (b : Bool) :
    x &&& mask b ||| y &&& mask (!b) = if b then x else y := by
  rw [and_mask, and_mask]
  cases b
  · exact BitVec.zero_or
  · exact BitVec.or_zero

/-- The shift of the carry: `63 - (n & 63)`. -/
def carryShift (n : BitVec 64) : BitVec 64 := BitVec.ofNat 64 63 - (n &&& BitVec.ofNat 64 63)

theorem toNat_carryShift (n : BitVec 64) : (carryShift n).toNat = 63 - n.toNat % 64 := by
  have hand : (n &&& BitVec.ofNat 64 63).toNat = n.toNat % 64 := by
    rw [BitVec.toNat_and]
    exact Nat.and_two_pow_sub_one_eq_mod n.toNat 6
  have hlt := Nat.mod_lt n.toNat (show 0 < 64 by decide)
  have h63 : (BitVec.ofNat 64 63).toNat = 63 := rfl
  rw [carryShift, BitVec.toNat_sub, hand, h63]
  omega

/-- The carry between the halves: by `64 - s`, and nothing for `s = 0`. -/
theorem lsr_carry (x n : BitVec 64) :
    WordOp.lsr.eval (WordOp.lsr.eval x (BitVec.ofNat 64 1)) (carryShift n) =
      x >>> (64 - n.toNat % 64) := by
  have hlt := Nat.mod_lt n.toNat (show 0 < 64 by decide)
  rw [(eval_amount (by decide) x).2.1, WordOp.eval, toNat_carryShift,
    Nat.mod_eq_of_lt (by omega), ← BitVec.shiftRight_add]
  congr 1
  omega

theorem shl_carry (x n : BitVec 64) :
    WordOp.shl.eval (WordOp.shl.eval x (BitVec.ofNat 64 1)) (carryShift n) =
      x <<< (64 - n.toNat % 64) := by
  have hlt := Nat.mod_lt n.toNat (show 0 < 64 by decide)
  rw [(eval_amount (by decide) x).1, WordOp.eval, toNat_carryShift,
    Nat.mod_eq_of_lt (by omega), ← BitVec.shiftLeft_add]
  congr 1
  omega

section Dynamic

variable {amount : T.Register} {n : BitVec 64} [hamount : Knows facts amount n]

theorem yields_emitMasks (hand : M.has .and) (hsub : M.has .sub) :
    Yields (Known M start [] facts compared) (emitMasks amount) (fun masks =>
      Known M start [] (⟨masks.1, carryShift n⟩ :: ⟨masks.2.1, mask (decide (n.toNat < 64))⟩ ::
        ⟨masks.2.2, mask (!decide (n.toNat < 64))⟩ :: facts) none) := by
  have hult : compares .ult n (BitVec.ofNat 64 64) = decide (n.toNat < 64) := rfl
  have huge : compares .uge n (BitVec.ofNat 64 64) = !decide (n.toNat < 64) := by
    have hle : compares .uge n (BitVec.ofNat 64 64) = decide (64 ≤ n.toNat) := rfl
    rw [hle, ← decide_not, decide_eq_decide, Nat.not_lt]
  refine yields_emitConstant.bind fun c63 => (yields_emitBinary hand).bind fun n63 =>
    (yields_emitBinary hsub).bind fun inv => yields_emitConstant.bind fun c64 =>
    yields_cmp.bind fun _ => yields_freshVreg.bind fun lt64 => yields_cset.bind fun _ =>
    yields_freshVreg.bind fun ge64 => yields_cset.bind fun _ => yields_emitConstant.bind fun zero =>
    (yields_emitBinary hsub).bind fun maskLo => (yields_emitBinary hsub).bind fun maskHi =>
    Yields.pure fun sel h => ?_
  rw [hult, huge] at h
  rw [← zero_sub_bit, ← zero_sub_bit]
  have h' : Known M start [] (⟨inv, _⟩ :: ⟨maskLo, _⟩ :: ⟨maskHi, _⟩ :: facts) none sel := h.three
  exact h'

variable {b : Bool} {maskLo maskHi : T.Register} [Knows facts maskLo (mask b)]
  [Knows facts maskHi (mask !b)]

theorem yields_emitSelect {lowCase highCase : T.Register} {x y : BitVec 64} (hand : M.has .and)
    (hor : M.has .or) [Knows facts lowCase x] [Knows facts highCase y] :
    Yields (Known M start [] facts compared) (emitSelect maskLo maskHi lowCase highCase)
      (fun d => Known M start [] (⟨d, if b then x else y⟩ :: facts) none) := by
  refine (yields_emitBinary hand).bind fun low => (yields_emitBinary hand).bind fun high =>
    (yields_emitBinary hor).weaken fun d sel h => ?_
  rw [← select_mask]
  have h' : Known M start [] (⟨d, _⟩ :: facts) none sel := h.one
  exact h'

/-- A shift across the halves, by the amount modulo a word and whether it is
    below one. -/
theorem wide_shl_cases (lo hi n : BitVec 64) (h : n.toNat < 128) :
    wide lo hi <<< n.toNat =
      wide (if decide (n.toNat < 64) then lo <<< (n.toNat % 64) else 0)
        (if decide (n.toNat < 64) then hi <<< (n.toNat % 64) ||| lo >>> (64 - n.toNat % 64)
          else lo <<< (n.toNat % 64)) := by
  by_cases h64 : n.toNat < 64
  · rw [decide_eq_true h64, if_pos rfl, if_pos rfl, Nat.mod_eq_of_lt h64]
    rcases Nat.eq_zero_or_pos n.toNat with h0 | h0
    · rw [h0, BitVec.ushiftRight_eq_zero (Nat.le_refl 64)]
      simp
    · exact wide_shl_of_lt lo hi h0 h64
  · have hmod : n.toNat % 64 = n.toNat - 64 := by omega
    rw [decide_eq_false h64, if_neg Bool.false_ne_true, if_neg Bool.false_ne_true, hmod]
    exact wide_shl_of_ge lo hi (Nat.le_of_not_lt h64)

theorem wide_shiftRight_cases (signed : Bool) (lo hi n : BitVec 64) (h : n.toNat < 128) :
    shiftRight signed (wide lo hi) n.toNat =
      wide (if decide (n.toNat < 64) then lo >>> (n.toNat % 64) ||| hi <<< (64 - n.toNat % 64)
          else shiftRight signed hi (n.toNat % 64))
        (if decide (n.toNat < 64) then shiftRight signed hi (n.toNat % 64)
          else if signed then hi.sshiftRight 63 else 0) := by
  by_cases h64 : n.toNat < 64
  · rw [decide_eq_true h64, if_pos rfl, if_pos rfl, Nat.mod_eq_of_lt h64]
    rcases Nat.eq_zero_or_pos n.toNat with h0 | h0
    · rw [h0, shiftRight_zero, shiftRight_zero, BitVec.shiftLeft_eq_zero (Nat.le_refl 64)]
      simp
    · exact wide_shiftRight_of_lt h0 h64 signed
  · have hmod : n.toNat % 64 = n.toNat - 64 := by omega
    rw [decide_eq_false h64, if_neg Bool.false_ne_true, if_neg Bool.false_ne_true, hmod]
    exact wide_shiftRight_of_ge (Nat.le_of_not_lt h64) signed

theorem eval_hiShift_amount (signed : Bool) (a n : BitVec 64) :
    (hiShift signed).eval a n = shiftRight signed a (n.toNat % 64) := by
  cases signed <;> rfl

variable {pair : Pair T} {lo hi : BitVec 64} [Knows facts pair.1 lo] [Knows facts pair.2 hi]

theorem yields_dynamicHigh {hiShifted : T.Register} {x : BitVec 64} {signed : Bool}
    [Knows facts hiShifted x] (hand : M.has .and) (hor : M.has .or)
    (hasr : signed = true → M.has .asr) :
    Yields (Known M start [] facts compared) (dynamicHigh pair.2 hiShifted maskLo maskHi signed)
      (fun d => Known M start []
        (⟨d, if b then x else if signed then hi.sshiftRight 63 else 0⟩ :: facts) none) := by
  cases signed
  · refine (yields_emitBinary hand).weaken fun d sel h => ?_
    rw [WordOp.eval, and_mask] at h
    exact h
  · rw [if_pos rfl, ← (eval_amount (show 63 < 64 by decide) hi).2.2]
    exact yields_emitConstant.bind fun sixtyThree => (yields_emitBinary (hasr rfl)).bind fun sign =>
      (yields_emitSelect hand hor).weaken fun d sel h => h.one (a := d)

end Dynamic

section Dynamic

variable {amount : T.Register} {n : BitVec 64} [hamount : Knows facts amount n]
  {pair : Pair T} {lo hi : BitVec 64} [Knows facts pair.1 lo] [Knows facts pair.2 hi]

theorem yields_lowerDynamicShift128_shl (hhas : ∀ op, M.has op) (h : n.toNat < 128) :
    Yields (Known M start [] facts compared) (lowerDynamicShift128 .shl pair amount)
      (HoldsWide start facts (wide lo hi <<< n.toNat)) := by
  refine (yields_emitMasks (hhas _) (hhas _)).bind fun masks => ?_
  refine (yields_emitBinary (hhas _)).bind fun shlLo => (yields_emitBinary (hhas _)).bind fun shlHi =>
    yields_emitConstant.bind fun one => (yields_emitBinary (hhas _)).bind fun loHalf =>
    (yields_emitBinary (hhas _)).bind fun carry => (yields_emitBinary (hhas _)).bind fun hiLowCase =>
    (yields_emitBinary (hhas _)).bind fun newLo =>
    (yields_emitSelect (hhas _) (hhas _)).bind fun newHi => yields_pair ?_
  have hlow : WordOp.and.eval (WordOp.shl.eval lo n) (mask (decide (n.toNat < 64))) =
      if decide (n.toNat < 64) then lo <<< (n.toNat % 64) else 0 := by
    rw [WordOp.eval, and_mask, WordOp.eval]
  rw [lsr_carry, hlow, wide_shl_cases lo hi n h]
  rfl

theorem yields_dynamicShiftRight (signed : Bool) (hhas : ∀ op, M.has op) (h : n.toNat < 128) :
    Yields (Known M start [] facts compared)
      (emitMasks amount >>= fun masks =>
        dynamicShiftRight pair amount masks.1 masks.2.1 masks.2.2 signed)
      (HoldsWide start facts (shiftRight signed (wide lo hi) n.toNat)) := by
  refine (yields_emitMasks (hhas _) (hhas _)).bind fun masks => ?_
  refine (yields_emitBinary (hhas _)).bind fun hiShifted =>
    (yields_emitBinary (hhas _)).bind fun lsrLo => yields_emitConstant.bind fun one =>
    (yields_emitBinary (hhas _)).bind fun hiDouble => (yields_emitBinary (hhas _)).bind fun carry =>
    (yields_emitBinary (hhas _)).bind fun loLowCase =>
    (yields_emitSelect (hhas _) (hhas _)).bind fun newLo =>
    (yields_dynamicHigh (hhas _) (hhas _) fun _ => hhas _).bind fun newHi => yields_pair ?_
  rw [shl_carry, eval_hiShift_amount, wide_shiftRight_cases signed lo hi n h]
  rfl

end Dynamic

/-! ## Comparisons -/

theorem bit_and_bit (a b : Bool) : WordOp.and.eval (bit a) (bit b) = bit (a && b) := by
  cases a <;> cases b <;> rfl

theorem bit_or_bit (a b : Bool) : WordOp.or.eval (bit a) (bit b) = bit (a || b) := by
  cases a <;> cases b <;> rfl

section Order

variable (ll lh rl rh : BitVec 64)

theorem wide_toNat_le_iff : (wide ll lh).toNat ≤ (wide rl rh).toNat ↔
    lh.toNat < rh.toNat ∨ lh = rh ∧ ll.toNat ≤ rl.toNat := by
  have hlt := wide_toNat_lt_iff rl rh ll lh
  rw [← BitVec.toNat_inj] at hlt
  rw [← BitVec.toNat_inj]
  omega

theorem wide_toInt_le_iff : (wide ll lh).toInt ≤ (wide rl rh).toInt ↔
    lh.toInt < rh.toInt ∨ lh = rh ∧ ll.toNat ≤ rl.toNat := by
  have hlt := wide_toInt_lt_iff rl rh ll lh (by decide)
  rw [← BitVec.toInt_inj] at hlt
  rw [← BitVec.toInt_inj]
  omega

/-- Pairs are ordered by their high halves first. -/
theorem evalICmp_wide {predicate : ICmpPredicate} (heq : predicate ≠ .eq) (hne : predicate ≠ .ne) :
    evalICmp predicate 128 (wide ll lh).toNat (wide rl rh).toNat =
      (compares (Lowering.halfPredicates predicate).1 lh rh ||
        (compares .eq lh rh && compares (Lowering.halfPredicates predicate).2 ll rl)) := by
  have hsigned : ∀ lo hi : BitVec 64, toSigned 128 (wide lo hi).toNat = (wide lo hi).toInt :=
    fun lo hi => toSigned_toNat (wide lo hi)
  rw [Bool.eq_iff_iff]
  cases predicate <;>
    simp only [evalICmp, compares, Lowering.halfPredicates, Bool.or_eq_true, Bool.and_eq_true,
      decide_eq_true_eq, BitVec.toNat_inj, hsigned, toSigned_toNat]
  case eq => exact absurd rfl heq
  case ne => exact absurd rfl hne
  case slt => exact wide_toInt_lt_iff ll lh rl rh (by decide)
  case sle => exact wide_toInt_le_iff ll lh rl rh
  case sgt => rw [wide_toInt_lt_iff rl rh ll lh (by decide), @eq_comm _ rh]
  case sge => rw [wide_toInt_le_iff rl rh ll lh, @eq_comm _ rh]
  case ult => exact wide_toNat_lt_iff ll lh rl rh
  case ule => exact wide_toNat_le_iff ll lh rl rh
  case ugt => rw [wide_toNat_lt_iff rl rh ll lh, @eq_comm _ rh]
  case uge => rw [wide_toNat_le_iff rl rh ll lh, @eq_comm _ rh]

end Order

section Compare

variable {l r : Pair T} {ll lh rl rh : BitVec 64} [Knows facts l.1 ll] [Knows facts l.2 lh]
  [Knows facts r.1 rl] [Knows facts r.2 rh]

/-- Both halves are equal, or one of them differs. -/
theorem evalICmp_wide_eq (ll lh rl rh : BitVec 64) :
    evalICmp .eq 128 (wide ll lh).toNat (wide rl rh).toNat =
      (compares .eq lh rh && compares .eq ll rl) ∧
    evalICmp .ne 128 (wide ll lh).toNat (wide rl rh).toNat =
      (compares .ne lh rh || compares .ne ll rl) := by
  have hiff := wide_eq_iff ll lh rl rh
  constructor
  · rw [Bool.eq_iff_iff]
    simp only [evalICmp, compares, Bool.and_eq_true, decide_eq_true_eq, BitVec.toNat_inj]
    exact hiff
  · rw [Bool.eq_iff_iff]
    simp only [evalICmp, compares, Bool.or_eq_true, decide_eq_true_eq, BitVec.toNat_inj, ne_eq]
    exact (not_congr hiff).trans not_and_or

theorem yields_compareHalves (predicate : ICmpPredicate) (hand : M.has .and) (hor : M.has .or) :
    Yields (Known M start [] facts compared) (Lowering.compareHalves predicate l r)
      (HoldsBit start facts
        (evalICmp predicate 128 (wide ll lh).toNat (wide rl rh).toNat)) := by
  have hordered : ∀ {p : ICmpPredicate}, p ≠ .eq → p ≠ .ne →
      Yields (Known M start [] facts compared)
        (do
          let hiCmp ← Lowering.emitCompareBit l.2 r.2 (Lowering.halfPredicates p).1
          let hiEq ← Lowering.emitCompareBit l.2 r.2 .eq
          let loCmp ← Lowering.emitCompareBit l.1 r.1 (Lowering.halfPredicates p).2
          let eqAndLo ← emitBinary .and hiEq loCmp
          emitBinary .or hiCmp eqAndLo)
        (HoldsBit start facts (evalICmp p 128 (wide ll lh).toNat (wide rl rh).toNat)) := by
    intro p heq hne
    refine yields_emitCompareBit.bind fun hiCmp => yields_emitCompareBit.bind fun hiEq =>
      yields_emitCompareBit.bind fun loCmp => (yields_emitBinary hand).bind fun eqAndLo =>
      (yields_emitBinary hor).weaken fun d sel h => ?_
    rw [bit_and_bit, bit_or_bit, ← evalICmp_wide ll lh rl rh heq hne] at h
    exact h.one (a := d)
  have hboth := evalICmp_wide_eq ll lh rl rh
  cases predicate
  case eq =>
    refine yields_emitCompareBit.bind fun hiEq => yields_emitCompareBit.bind fun loEq =>
      (yields_emitBinary hand).weaken fun d sel h => ?_
    rw [bit_and_bit, ← hboth.1] at h
    exact h.one (a := d)
  case ne =>
    refine yields_emitCompareBit.bind fun hiNe => yields_emitCompareBit.bind fun loNe =>
      (yields_emitBinary hor).weaken fun d sel h => ?_
    rw [bit_or_bit, ← hboth.2] at h
    exact h.one (a := d)
  all_goals exact hordered (by decide) (by decide)

end Compare

/-! ## Operations on bit vectors -/

/-- An operation other than a division, on bit vectors. -/
def bitVecBin {n : Nat} (x y : BitVec n) : IntBinOp → Option (BitVec n)
  | .add => some (x + y)
  | .sub => some (x - y)
  | .mul => some (x * y)
  | .and => some (x &&& y)
  | .or => some (x ||| y)
  | .xor => some (x ^^^ y)
  | .shl => if y.toNat < n then some (x <<< y.toNat) else none
  | .lshr => if y.toNat < n then some (x >>> y.toNat) else none
  | .ashr => if y.toNat < n then some (x.sshiftRight y.toNat) else none
  | .sdiv | .udiv | .srem | .urem => none

/-- A bit vector is the wrapping of its signed reading. -/
theorem wrap_toInt {n : Nat} (x : BitVec n) : wrap n x.toInt = x.toNat := by
  rw [← toSigned_toNat, wrap_toSigned x.isLt]

theorem wrap_add_toNat {n : Nat} (x y : BitVec n) : wrap n (x.toNat + y.toNat) = (x + y).toNat := by
  rw [← Nat.cast_add, wrap_natCast, BitVec.toNat_add]

theorem wrap_sub_toNat {n : Nat} (x y : BitVec n) : wrap n (x.toNat - y.toNat) = (x - y).toNat := by
  have hadd := wrap_add_toNat (x - y) y
  rw [BitVec.sub_add_cancel] at hadd
  refine wrap_eq_of_modEq (x - y).isLt ?_
  have hmod := natCast_wrap_modEq n ((x - y).toNat + y.toNat)
  rw [hadd] at hmod
  have h := hmod.symm.sub_right (y.toNat : Int)
  rwa [Int.add_sub_cancel] at h

theorem evalBin_of_bitVecBin {n : Nat} {x y z : BitVec n} {op : IntBinOp}
    (h : bitVecBin x y op = some z) : evalBin op n x.toNat y.toNat = some z.toNat := by
  cases op <;> simp only [bitVecBin, Option.some.injEq, reduceCtorEq,
    Option.ite_none_right_eq_some] at h
  case add => rw [evalBin, wrap_add_toNat, h]
  case sub => rw [evalBin, wrap_sub_toNat, h]
  case mul => rw [evalBin, ← Nat.cast_mul, wrap_natCast, ← h, BitVec.toNat_mul]
  case and => rw [evalBin, ← h, BitVec.toNat_and]
  case or => rw [evalBin, ← h, BitVec.toNat_or]
  case xor => rw [evalBin, ← h, BitVec.toNat_xor]
  case shl =>
    rw [evalBin, if_pos h.1, ← h.2, BitVec.toNat_shiftLeft, Nat.shiftLeft_eq]
    have hcast : (x.toNat : Int) * 2 ^ y.toNat = ((x.toNat * 2 ^ y.toNat : Nat) : Int) := by
      push_cast
      rfl
    rw [hcast, wrap_natCast]
  case lshr => rw [evalBin, if_pos h.1, ← h.2, BitVec.toNat_ushiftRight, Nat.shiftRight_eq_div_pow]
  case ashr =>
    have hdiv : (x.sshiftRight y.toNat).toInt = x.toInt / 2 ^ y.toNat := by
      rw [BitVec.toInt_sshiftRight, Int.shiftRight_eq_div_pow]
      push_cast
      rfl
    rw [evalBin, if_pos h.1, ← h.2, toSigned_toNat, ← hdiv, wrap_toInt]

theorem exists_bitVecBin {n : Nat} {x y : BitVec n} {z : Nat} {op : IntBinOp}
    (hop : op ≠ .sdiv ∧ op ≠ .udiv ∧ op ≠ .srem ∧ op ≠ .urem)
    (h : evalBin op n x.toNat y.toNat = some z) : ∃ v, bitVecBin x y op = some v ∧ v.toNat = z := by
  cases hv : bitVecBin x y op with
  | some v => exact ⟨v, rfl, Option.some.inj ((evalBin_of_bitVecBin hv).symm.trans h)⟩
  | none =>
    cases op <;> simp only [bitVecBin, reduceCtorEq, ite_eq_right_iff, imp_false] at hv
    case shl | lshr | ashr =>
      rw [evalBin, if_neg hv] at h
      cases h
    all_goals simp at hop

/-! ## Operands -/

/-- Whether the type of a value in one register says that it is signed. -/
def isSigned (ty : Ty) : Bool :=
  match integerWidthAndSignedness ty with
  | some (_, signed) => signed
  | none => false

/-- A register that is not in the floating-point file. -/
def IsInteger (T : Target) (r : T.Register) : Prop := ∀ F ∈ T.fp, F.kindOf r = none

/-- A 128-bit operand: a constant, a pair of registers, or a register that is
    extended by the sign of the type. -/
inductive Operand (facts : List (Fact T)) (ty : Ty) : LoweredValue T.Register → BitVec 128 → Prop
  | imm (x : BitVec 128) : Operand facts ty (.imm x.toNat) x
  | regPair {lo hi : T.Register} {x y : BitVec 64} (hlo : ⟨lo, x⟩ ∈ facts) (hhi : ⟨hi, y⟩ ∈ facts) :
      Operand facts ty (.regPair lo hi) (wide x y)
  | reg {r : T.Register} {x : BitVec 64} (hr : ⟨r, x⟩ ∈ facts) (hint : IsInteger T r) :
      Operand facts ty (.reg r) (if isSigned ty then x.signExtend 128 else x.setWidth 128)

namespace Operand

variable {ty : Ty} {v : LoweredValue T.Register} {x : BitVec 128}

theorem mono {facts' : List (Fact T)} (h : Operand facts ty v x) (hsub : facts ⊆ facts') :
    Operand facts' ty v x := by
  cases h with
  | imm x => exact imm x
  | regPair hlo hhi => exact regPair (hsub hlo) (hsub hhi)
  | reg hr hint => exact reg (hsub hr) hint

end Operand

theorem wide_zero (x : BitVec 64) : wide x 0 = x.setWidth 128 := by
  refine BitVec.eq_of_getLsbD_eq fun i hi => ?_
  rw [getLsbD_wide, BitVec.getLsbD_setWidth]
  by_cases hlt : i < 64
  · simp [hlt, show i < 128 by omega]
  · have hout : x.getLsbD i = false := BitVec.getLsbD_of_ge _ _ (by omega)
    simp [hlt, hout]

theorem getLsbD_mask (b : Bool) {i : Nat} (h : i < 64) : (mask b).getLsbD i = b := by
  cases b
  · exact BitVec.getLsbD_zero
  · rw [mask, if_pos rfl, BitVec.getLsbD_allOnes, decide_eq_true h]

theorem wide_mask (x : BitVec 64) : wide x (mask x.msb) = x.signExtend 128 := by
  refine BitVec.eq_of_getLsbD_eq fun i hi => ?_
  have hi' : i < 128 := hi
  rw [getLsbD_wide, BitVec.getLsbD_signExtend]
  by_cases hlt : i < 64
  · simp [hlt, hi']
  · rw [if_neg hlt, if_neg hlt, getLsbD_mask _ (show i - 64 < 64 by omega), decide_eq_true hi,
      Bool.true_and]

theorem ushiftRight_signBit (x : BitVec 64) : x >>> 63 = bit x.msb := by
  have hlt : x.toNat < 2 ^ 64 := x.isLt
  have hmsb : x.msb = decide (2 ^ 63 ≤ x.toNat) := BitVec.msb_eq_decide x
  rw [hmsb]
  refine BitVec.eq_of_toNat_eq ?_
  rw [BitVec.toNat_ushiftRight, Nat.shiftRight_eq_div_pow]
  by_cases h : 2 ^ 63 ≤ x.toNat
  · have hdiv : x.toNat / 2 ^ 63 = 1 := by omega
    rw [hdiv, decide_eq_true h]
    rfl
  · have hdiv : x.toNat / 2 ^ 63 = 0 := by omega
    rw [hdiv, decide_eq_false h]
    rfl

/-- The top bit times minus one. -/
theorem mul_signBit (x : BitVec 64) :
    WordOp.mul.eval (WordOp.lsr.eval x (BitVec.ofNat 64 63)) (BitVec.ofNat 64 (2 ^ 64 - 1)) =
      mask x.msb := by
  rw [(eval_amount (show 63 < 64 by decide) x).2.1, WordOp.eval, ushiftRight_signBit]
  cases x.msb <;> decide

theorem yields_signMultiply {lo hi sign : T.Register} {x : BitVec 64} [Knows facts lo x]
    [Knows facts sign (BitVec.ofNat 64 63)] (hlsr : M.has .lsr) (hmul : M.has .mul) :
    Yields (Known M start [gprSlot hi] facts compared) (signMultiply lo hi sign)
      (fun d => Known M start [] (⟨d, mask x.msb⟩ :: facts) none) := by
  intro sel h
  have hvirtual := h.gpr_virtual
  have hfresh := (h.reserved_fresh _ List.mem_cons_self).1
  have hne := h.reserved_ne _ List.mem_cons_self
  refine ((yields_binary hlsr).bind fun _ => yields_freshVreg.bind fun maskReg sel' h' => ?_) sel h
  have hmask : ∀ f ∈ (⟨maskReg, BitVec.ofNat 64 (2 ^ 64 - 1)⟩ : Fact T) :: facts, f.reg ≠ hi := by
    refine List.forall_mem_cons.mpr ⟨fun heq => ?_, hne⟩
    exact h'.reserved_ne _ List.mem_cons_self _ List.mem_cons_self heq.symm
  refine (yields_immediate.bind fun _ => ?_) sel' h'
  intro sel hk
  -- The half that is overwritten comes first.
  have hswap := hk.forget (List.Perm.swap _ _ facts).subset
  refine ((yields_overwrite hmul hvirtual hfresh hmask).bind fun _ => .pure fun _ h => ?_) sel hswap
  rw [mul_signBit] at h
  exact h.forget (List.cons_subset_cons _ (List.subset_cons_self _ _))

/-- Extending by the sign leaves the sign in every bit of the high half. -/
def Lowering.SignExtends (L : Lowering T) (M : Machine T) : Prop :=
  ∀ {start : Start M} {facts : List (Fact T)} {compared : Option (BitVec 64 × BitVec 64)}
    {r : T.Register} {x : BitVec 64} [Knows facts r x],
    Yields (Known M start [] facts compared) (L.signExtendHighHalf r)
      (fun d => Known M start [] (⟨d, mask x.msb⟩ :: facts) none)

/-! ## Operands in pairs -/

namespace Lowering

variable {L : Lowering T} {ty : Ty} {v : LoweredValue T.Register} {x : BitVec 128}

theorem yields_materializePair (hext : L.SignExtends M) (h : Operand facts ty v x) :
    Yields (Known M start [] facts compared) (L.materializePair v ty) (HoldsWide start facts x) := by
  cases h with
  | imm x =>
    rw [materializePair]
    refine yields_emitConstant.bind fun lo => yields_emitConstant.bind fun hi => yields_pair ?_
    have hx : x.toNat < 2 ^ 128 := x.isLt
    refine (wide_of_toNat _ _ ?_ ?_).symm
    · rw [BitVec.toNat_ofNat, Nat.mod_mod]
    · rw [BitVec.toNat_ofNat]
  | @regPair lo hi x y hlo hhi =>
    have hlo' : Knows facts lo x := ⟨hlo⟩
    have hhi' : Knows facts hi y := ⟨hhi⟩
    rw [materializePair]
    exact yields_pair rfl
  | @reg r x hr hint =>
    have hr' : Knows facts r x := ⟨hr⟩
    rw [materializePair]
    cases hty : integerWidthAndSignedness ty with
    | none =>
      have hunsigned : isSigned ty = false := by rw [isSigned, hty]
      rw [hunsigned]
      exact yields_emitConstant.bind fun hi => yields_pair (wide_zero x)
    | some widthSigned =>
      obtain ⟨width, signed⟩ := widthSigned
      have hsigned : isSigned ty = signed := by rw [isSigned, hty]
      rw [hsigned]
      cases signed
      · exact yields_emitConstant.bind fun hi => yields_pair (wide_zero x)
      · exact hext.bind fun hi => yields_pair (wide_mask x)

/-- An operand in one register is its low word. -/
theorem yields_materialize (h : Operand facts ty v x) (himm : constantAmount v = none) :
    Yields (Known M start [] facts compared) (L.materialize v)
      (fun d => Known M start [] (⟨d, x.setWidth 64⟩ :: facts) none) := by
  cases h with
  | imm x => cases himm
  | @regPair lo hi x y hlo hhi =>
    have hlo' : Knows facts lo x := ⟨hlo⟩
    rw [materialize]
    have hlow : (wide x y).setWidth 64 = x := by
      refine BitVec.eq_of_getLsbD_eq fun i hi => ?_
      simp [getLsbD_wide, hi]
    rw [hlow]
    exact yields_existing
  | @reg r x hr hint =>
    have hr' : Knows facts r x := ⟨hr⟩
    have hnone : T.fp.bind (fun F => (F.kindOf r).map (F.toGpr · · r)) = none := by
      cases hfp : T.fp with
      | none => rfl
      | some F => rw [Option.bind_some, hint F hfp, Option.map_none]
    have hlow : (if isSigned ty then x.signExtend 128 else x.setWidth 128).setWidth 64 = x := by
      refine BitVec.eq_of_getLsbD_eq fun i hi => ?_
      have hi' : i < 128 := by omega
      rw [BitVec.getLsbD_setWidth, decide_eq_true hi, Bool.true_and]
      split
      · rw [BitVec.getLsbD_signExtend, if_pos hi, decide_eq_true hi', Bool.true_and]
      · rw [BitVec.getLsbD_setWidth, decide_eq_true hi', Bool.true_and]
    rw [materialize, hnone, hlow]
    exact yields_existing

end Lowering

/-! ## Operations on operands -/

/-- The shift that a kind names. -/
def DynamicShift.shift (x : BitVec 128) (amount : Nat) : DynamicShift → BitVec 128
  | .shl => x <<< amount
  | .lshr => x >>> amount
  | .ashr => x.sshiftRight amount

/-- A back end's shift by a register, where it has one. -/
abbrev DynamicLowering (T : Target) :=
  Option (DynamicShift → Pair T → T.Register → Select T (Pair T))

/-- Every operation on words but the arithmetic shift, and that one too where
    there are shifts by a register. -/
structure Supports (M : Machine T) (dynamic : DynamicLowering T) : Prop where
  words : ∀ op, op ≠ .asr → M.has op
  dynamic : ∀ lower, dynamic = some lower → lower = lowerDynamicShift128 ∧ M.has .asr

/-- Divisions are calls, and a back end may have no shifts by a register. -/
def Accepts {R : Type} (dynamic : Bool) (rhs : LoweredValue R) : IntBinOp → Prop
  | .sdiv | .udiv | .srem | .urem => False
  | .shl | .lshr | .ashr => constantAmount rhs = none → dynamic = true
  | _ => True

/-- After the selection the value is the constant `z` or a pair that holds it. -/
def HoldsResult (start : Start M) (facts : List (Fact T)) (z : BitVec 128)
    (v : LoweredValue T.Register) (sel : Selection T) : Prop :=
  v = .imm z.toNat ∧ Known M start [] facts none sel ∨
    ∃ pair : Pair T, v = .regPair pair.1 pair.2 ∧ HoldsWide start facts z pair sel

namespace Lowering

variable {L : Lowering T} {ty : Ty} {dynamic : DynamicLowering T}

section Pair

variable {pair : Pair T} {lo hi : BitVec 64} [Knows facts pair.1 lo] [Knows facts pair.2 hi]
  {rhs : LoweredValue T.Register} {y : BitVec 128}

theorem yields_lowerDynamicShift128 (kind : DynamicShift) {amount : T.Register} {n : BitVec 64}
    [Knows facts amount n] (hhas : ∀ op, M.has op) (h : n.toNat < 128) :
    Yields (Known M start [] facts compared) (lowerDynamicShift128 kind pair amount)
      (HoldsWide start facts (kind.shift (wide lo hi) n.toNat)) := by
  cases kind with
  | shl => exact yields_lowerDynamicShift128_shl hhas h
  | lshr => exact yields_dynamicShiftRight false hhas h
  | ashr => exact yields_dynamicShiftRight true hhas h

theorem yields_lowerShift128 (hsupports : Supports M dynamic) (kind : DynamicShift)
    (hasr : kind = .ashr → M.has .asr) (h : Operand facts ty rhs y) (hy : y.toNat < 128)
    (haccepts : constantAmount rhs = none → dynamic.isSome = true) :
    Yields (Known M start [] facts compared) (L.lowerShift128 dynamic kind pair rhs)
      (HoldsWide start facts (kind.shift (wide lo hi) y.toNat)) := by
  have hwords := hsupports.words
  unfold lowerShift128
  cases hconst : constantAmount rhs with
  | some shift =>
    have hshift : shift = y.toNat := by
      cases h with
      | imm => exact (Option.some.inj hconst).symm.trans (Nat.min_eq_left (by omega))
      | regPair | reg => cases hconst
    subst hshift
    cases kind with
    | shl =>
      exact yields_lowerShiftLeft128 (hwords _ (by decide)) (hwords _ (by decide))
        (hwords _ (by decide)) hy
    | lshr =>
      exact yields_lowerShiftRight128 false (hwords _ (by decide))
        (hwords _ (by decide)) (hwords _ (by decide)) (fun h => nomatch h) hy
    | ashr =>
      exact yields_lowerShiftRight128 true (hwords _ (by decide))
        (hwords _ (by decide)) (hwords _ (by decide)) (fun _ => hasr rfl) hy
  | none =>
    obtain ⟨lower, hlower⟩ := Option.isSome_iff_exists.mp (haccepts hconst)
    obtain ⟨rfl, hasr'⟩ := hsupports.dynamic lower hlower
    have hhas : ∀ op, M.has op := fun op => by
      by_cases hop : op = .asr
      · exact hop ▸ hasr'
      · exact hwords op hop
    -- An amount below 128 is in the low word.
    have hlow : (y.setWidth 64).toNat = y.toNat := by
      rw [BitVec.toNat_setWidth, Nat.mod_eq_of_lt (by omega)]
    rw [hlower, ← hlow]
    refine (yields_materialize h hconst).bind fun amount => ?_
    refine (yields_lowerDynamicShift128 kind hhas (by omega)).weaken fun result sel hresult => ?_
    exact HoldsWide.weaken hresult (List.subset_cons_self _ _)

theorem yields_lowerPair128 (hext : L.SignExtends M) (hsupports : Supports M dynamic)
    {op : IntBinOp} {z : BitVec 128} (hasr : op = .ashr → M.has .asr)
    (h : Operand facts ty rhs y) (haccepts : Accepts dynamic.isSome rhs op)
    (hz : bitVecBin (wide lo hi) y op = some z) :
    Yields (Known M start [] facts compared) (L.lowerPair128 dynamic op pair rhs ty)
      (HoldsWide start facts z) := by
  have hwords := hsupports.words
  -- The right operand goes into a pair of its own.
  have hpair : ∀ {lower : Pair T → Select T (Pair T)},
      (∀ {facts' : List (Fact T)} {compared' : Option (BitVec 64 × BitVec 64)} {r : Pair T}
        {rl rh : BitVec 64} [Knows facts' pair.1 lo] [Knows facts' pair.2 hi] [Knows facts' r.1 rl]
        [Knows facts' r.2 rh], wide rl rh = y →
        Yields (Known M start [] facts' compared') (lower r) (HoldsWide start facts' z)) →
      Yields (Known M start [] facts compared) (L.materializePair rhs ty >>= lower)
        (HoldsWide start facts z) := by
    intro lower hlower
    refine (yields_materializePair hext h).bind fun r sel ⟨rl, rh, hknown, hwide⟩ => ?_
    refine (hlower hwide).weaken (fun result sel hresult => ?_) sel hknown
    exact HoldsWide.weaken hresult
      (List.subset_cons_of_subset _ (List.subset_cons_of_subset _ (List.Subset.refl _)))
  cases op
  case shl =>
    have hsome := Option.ite_none_right_eq_some.mp hz
    rw [← Option.some.inj hsome.2]
    exact yields_lowerShift128 hsupports .shl (fun h => nomatch h) h hsome.1 haccepts
  case lshr =>
    have hsome := Option.ite_none_right_eq_some.mp hz
    rw [← Option.some.inj hsome.2]
    exact yields_lowerShift128 hsupports .lshr (fun h => nomatch h) h hsome.1 haccepts
  case ashr =>
    have hsome := Option.ite_none_right_eq_some.mp hz
    rw [← Option.some.inj hsome.2]
    exact yields_lowerShift128 hsupports .ashr (fun _ => hasr rfl) h hsome.1 haccepts
  case sdiv | udiv | srem | urem => exact haccepts.elim
  all_goals
    refine hpair fun {facts' compared' r rl rh} _ _ _ _ hwide => ?_
    subst hwide
    rw [← Option.some.inj hz]
  case add => exact yields_lowerAdd128 (hwords _ (by decide))
  case sub => exact yields_lowerSub128 (hwords _ (by decide))
  case mul =>
    exact yields_lowerMul128 (hwords _ (by decide)) (hwords _ (by decide)) (hwords _ (by decide))
  case and => exact yields_lowerLogic128 (hwords _ (by decide)) (wide_and ..).symm
  case or => exact yields_lowerLogic128 (hwords _ (by decide)) (wide_or ..).symm
  case xor => exact yields_lowerLogic128 (hwords _ (by decide)) (wide_xor ..).symm

end Pair

variable {lhs rhs : LoweredValue T.Register} {x y z : BitVec 128}

/-- The operation on 128-bit operands, in constants, pairs or registers. -/
theorem yields_lowerBinary128 {fold : IntBinOp → Nat → Nat → Ty → Option Nat}
    (hext : L.SignExtends M) (hsupports : Supports M dynamic) {op : IntBinOp}
    (hasr : op = .ashr → M.has .asr) (hl : Operand facts ty lhs x) (hr : Operand facts ty rhs y)
    (hfold : fold op x.toNat y.toNat ty = some z.toNat) (haccepts : Accepts dynamic.isSome rhs op)
    (hz : bitVecBin x y op = some z) :
    Yields (Known M start [] facts compared) (L.lowerBinary128 fold dynamic op lhs rhs ty)
      (HoldsResult start facts z) := by
  rw [lowerBinary128]
  cases himm : foldImmediates fold op lhs rhs ty with
  | some imm =>
    have heq : imm = z.toNat := by
      cases hl <;> cases hr
      case imm.imm => exact Option.some.inj (himm.symm.trans hfold)
      all_goals cases himm
    subst heq
    exact Yields.pure fun sel h => .inl ⟨rfl, h.forget (List.Subset.refl _)⟩
  | none =>
    refine (yields_materializePair hext hl).bind fun pair sel ⟨lo, hi, hknown, hwide⟩ => ?_
    subst hwide
    have hsub : facts ⊆ ⟨pair.1, lo⟩ :: ⟨pair.2, hi⟩ :: facts :=
      List.subset_cons_of_subset _ (List.subset_cons_self _ _)
    refine ((yields_lowerPair128 hext hsupports hasr (hr.mono hsub) haccepts hz).bind
      fun result => Yields.pure fun sel hresult => .inr ⟨result, rfl, ?_⟩) sel hknown
    exact hresult.weaken hsub

/-- The comparison of 128-bit operands. -/
theorem yields_lowerCompareValue {predicate : ICmpPredicate} {rhsTy : Ty}
    (hext : L.SignExtends M) (hand : M.has .and) (hor : M.has .or)
    (hty : is128BitInteger ty = true) (hl : Operand facts ty lhs x)
    (hr : Operand facts rhsTy rhs y) :
    Yields (Known M start [] facts compared) (L.lowerCompareValue predicate ty lhs rhsTy rhs)
      (HoldsBit start facts (evalICmp predicate 128 x.toNat y.toNat)) := by
  rw [lowerCompareValue, if_pos hty]
  refine (yields_materializePair hext hl).bind fun l sel ⟨ll, lh, hknown, hwide⟩ => ?_
  subst hwide
  have hsub : facts ⊆ ⟨l.1, ll⟩ :: ⟨l.2, lh⟩ :: facts :=
    List.subset_cons_of_subset _ (List.subset_cons_self _ _)
  refine (yields_materializePair hext (hr.mono hsub)).bind
    (fun r sel ⟨rl, rh, hknown, hwide⟩ => ?_) sel hknown
  subst hwide
  refine (yields_compareHalves predicate hand hor).weaken (fun d sel hd => ?_) sel hknown
  exact hd.forget (List.cons_subset_cons _
    (List.Subset.trans hsub (List.subset_cons_of_subset _ (List.subset_cons_self _ _))))

end Lowering

end Crabbit.Isel
