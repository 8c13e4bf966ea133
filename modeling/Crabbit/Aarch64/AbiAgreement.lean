/-
  Crabbit.Aarch64.AbiAgreement

  When the caller's argument walk and `assignAbi` put every argument in the
  same place.  Both walks are compared through two counters: the integer
  words and the FP scalars placed so far.
-/

import Crabbit.Aarch64.CallLowering
import Mathlib.Tactic.IntervalCases

namespace Crabbit.Aarch64

open Crabbit.Llvm

/-! ## Places -/

/-- A word of an argument: a register or an 8-byte slot of the
    stack-argument area. -/
inductive ArgPlace where
  | reg (reg : Register)
  | stack (offset : Nat)
  deriving DecidableEq

def CallArgDst.place : CallArgDst → ArgPlace
  | .gpr number => .reg (.gpr number)
  | .fpr reg => .reg reg
  | .stack offset => .stack offset

/-- The words a location of `assignAbi` stands for; a stack location of an
    integer wider than 8 bytes is the two slots `assignAbi` advances by. -/
def AbiLocation.places (cls : AbiClass) : AbiLocation → List ArgPlace
  | .gpr reg => [.reg reg]
  | .gprPair lo hi => [.reg lo, .reg hi]
  | .indirectResult reg => [.reg reg]
  | .stack offset =>
    match cls with
    | .int size _ => if size ≤ 8 then [.stack offset] else [.stack offset, .stack (offset + 8)]
    | _ => [.stack offset]
  | .void => []

/-- Integer words a caller spends on an argument. -/
def intWords (ty : Ty) : Nat :=
  if (fpKind ty).isSome then 0 else if is128BitInteger ty then 2 else 1

/-- FP scalars a caller spends on an argument. -/
def fpScalars (ty : Ty) : Nat :=
  if (fpKind ty).isSome then 1 else 0

/-- First free stack slot after `words` integer words and `floats` FP scalars. -/
def stackAfter (words floats : Nat) : Nat := 8 * ((words - 8) + (floats - 8))

def intPlace (words floats : Nat) : ArgPlace :=
  if words < 8 then .reg (.gpr words) else .stack (stackAfter words floats)

def fpPlace (fp : FpKind) (words floats : Nat) : ArgPlace :=
  if floats < 8 then
    .reg (match fp with
      | .f64 => .fpr64 floats
      | .f32 => .fpr32 floats)
  else .stack (stackAfter words floats)

/-- The places the caller gives an argument of type `ty`. -/
def callerPlaces (words floats : Nat) (ty : Ty) : List ArgPlace :=
  match fpKind ty with
  | some fp => [fpPlace fp words floats]
  | none =>
    if is128BitInteger ty then [intPlace words floats, intPlace (words + 1) floats]
    else [intPlace words floats]

/-- The caller's counters after `words` integer words and `floats` FP scalars. -/
def callerWalk (words floats : Nat) : CallWalk :=
  ⟨min words 8, min floats 8, stackAfter words floats⟩

def calleeWalk (words floats : Nat) : AbiWalk :=
  ⟨min words 8, min floats 8, stackAfter words floats⟩

theorem pushGpr_callerWalk (src : Register) (words floats : Nat) :
    (pushGpr src (callerWalk words floats)).1.2.place = intPlace words floats ∧
      (pushGpr src (callerWalk words floats)).2 = callerWalk (words + 1) floats := by
  unfold pushGpr callerWalk intPlace
  by_cases h : words < 8
  · rw [Nat.min_eq_left (by omega), if_pos h, if_pos h]
    refine ⟨rfl, ?_⟩
    simp only [CallWalk.mk.injEq, stackAfter, true_and]
    omega
  · rw [Nat.min_eq_right (by omega), if_neg (Nat.lt_irrefl 8), if_neg h]
    refine ⟨rfl, ?_⟩
    simp only [CallWalk.mk.injEq, stackAfter, true_and]
    omega

/-- One argument of the caller's walk. -/
theorem placeCallArg_callerWalk (arg : LoweredArg) (words floats : Nat) :
    (placeCallArg arg (callerWalk words floats)).1.map (·.2.place) =
        callerPlaces words floats arg.ty ∧
      (placeCallArg arg (callerWalk words floats)).2 =
        callerWalk (words + intWords arg.ty) (floats + fpScalars arg.ty) := by
  unfold placeCallArg callerPlaces intWords fpScalars
  cases hfp : fpKind arg.ty with
  | some fp =>
    unfold callerWalk fpPlace
    by_cases h : floats < 8
    · simp only [Nat.min_eq_left (Nat.le_of_lt h), if_pos h]
      refine ⟨?_, ?_⟩
      · cases fp <;> rfl
      · simp only [CallWalk.mk.injEq, stackAfter, Option.isSome_some, if_true]
        omega
    · simp only [Nat.min_eq_right (Nat.le_of_not_lt h), if_neg h, Nat.lt_irrefl, if_false]
      refine ⟨rfl, ?_⟩
      simp only [CallWalk.mk.injEq, stackAfter, Option.isSome_some, if_true]
      omega
  | none =>
    simp only [Option.isSome_none, Bool.false_eq_true, if_false]
    obtain ⟨hlo, hw₁⟩ := pushGpr_callerWalk arg.src words floats
    by_cases h : is128BitInteger arg.ty = true
    · obtain ⟨hhi, hw₂⟩ := pushGpr_callerWalk arg.srcHi (words + 1) floats
      simp only [if_pos h, hw₁, List.map_cons, List.map_nil, hlo, hhi, hw₂, Nat.add_zero,
        true_and]
    · simp only [if_neg h, List.map_cons, List.map_nil, hlo, hw₁, Nat.add_zero, and_self]

/-! ## The condition -/

/-- The caller and `assignAbi` agree on an argument that follows `words`
    integer words and `floats` FP scalars: it is not zero-sized, not an
    integer of 65 to 127 bits, and a 128-bit integer either fits the
    registers (from an even one where pairs are even) or finds them used up
    and the stack 16-byte aligned. -/
def ArgAgrees (os : TargetOs) (words floats : Nat) : Ty → Prop
  | .int width _ =>
    width ≤ 64 ∨ width = 128 ∧
      (words ≤ 6 ∧ (os.requiresEvenGprPairs = true → words % 2 = 0) ∨
        8 ≤ words ∧ ((words - 8) + (floats - 8)) % 2 = 0)
  | .pointer | .fp32 | .fp64 => True
  | _ => False

theorem argAgrees_i128_of_le {os : TargetOs} {words floats : Nat} (h : words ≤ 6) :
    ArgAgrees os words floats (.i 128) ↔ (os.requiresEvenGprPairs = true → words % 2 = 0) := by
  unfold ArgAgrees
  rw [eq_true h, true_and]
  constructor
  · rintro (h64 | ⟨-, heven | ⟨h8, -⟩⟩)
    · omega
    · exact heven
    · omega
  · exact fun heven => .inr ⟨rfl, .inl heven⟩

theorem argAgrees_i128_of_lt {os : TargetOs} {words floats : Nat} (h : 6 < words) :
    ArgAgrees os words floats (.i 128) ↔
      8 ≤ words ∧ ((words - 8) + (floats - 8)) % 2 = 0 := by
  simp only [ArgAgrees, Nat.not_le.mpr h, false_and, false_or, true_and]
  omega

/-- Every argument of the list agrees, at the counters of the arguments
    before it. -/
def ConventionsAgree (os : TargetOs) (args : List Ty) : Prop :=
  ∀ before arg after, args = before ++ arg :: after →
    ArgAgrees os (before.map intWords).sum (before.map fpScalars).sum arg

/-- `ConventionsAgree` for arguments that follow `words` and `floats`. -/
def ConventionsAgreeFrom (os : TargetOs) (words floats : Nat) (args : List Ty) : Prop :=
  ∀ before arg after, args = before ++ arg :: after →
    ArgAgrees os (words + (before.map intWords).sum) (floats + (before.map fpScalars).sum) arg

theorem conventionsAgree_iff_from (os : TargetOs) (args : List Ty) :
    ConventionsAgree os args ↔ ConventionsAgreeFrom os 0 0 args := by
  simp only [ConventionsAgree, ConventionsAgreeFrom, Nat.zero_add]

theorem conventionsAgreeFrom_nil (os : TargetOs) (words floats : Nat) :
    ConventionsAgreeFrom os words floats [] := by
  intro before arg after h
  simp at h

theorem conventionsAgreeFrom_cons (os : TargetOs) (words floats : Nat) (ty : Ty)
    (args : List Ty) :
    ConventionsAgreeFrom os words floats (ty :: args) ↔
      ArgAgrees os words floats ty ∧
        ConventionsAgreeFrom os (words + intWords ty) (floats + fpScalars ty) args := by
  constructor
  · intro h
    refine ⟨h [] ty args rfl, ?_⟩
    intro before arg after hsplit
    have := h (ty :: before) arg after (by rw [hsplit]; rfl)
    simpa only [List.map_cons, List.sum_cons, Nat.add_assoc] using this
  · rintro ⟨hhead, htail⟩ before arg after hsplit
    cases before with
    | nil =>
      obtain ⟨rfl, -⟩ := List.cons.inj hsplit
      exact hhead
    | cons b before =>
      obtain ⟨rfl, hrest⟩ := List.cons.inj hsplit
      have := htail before arg after hrest
      simpa only [List.map_cons, List.sum_cons, Nat.add_assoc] using this

/-! ## The callee's walk -/

theorem assignArg_float (os : TargetOs) (name : String) (words floats : Nat) (fp : FpKind) :
    ∃ loc, assignArg os name (calleeWalk words floats)
        (.float (match fp with | .f64 => 8 | .f32 => 4)) =
          .ok (loc, calleeWalk words (floats + 1)) ∧
      ∀ size, loc.places (.float size) = [fpPlace fp words floats] := by
  unfold assignArg calleeWalk fpPlace
  by_cases h : floats < 8
  · refine ⟨.gpr (match fp with | .f64 => .fpr64 floats | .f32 => .fpr32 floats), ?_, ?_⟩
    · simp only [Nat.min_eq_left (Nat.le_of_lt h), if_pos h, Except.ok.injEq, Prod.mk.injEq,
        AbiWalk.mk.injEq, stackAfter, AbiLocation.gpr.injEq]
      refine ⟨by cases fp <;> rfl, trivial, by omega, by omega⟩
    · intro size
      simp only [AbiLocation.places, if_pos h]
  · have halign : alignTo (stackAfter words floats) 8 = stackAfter words floats :=
      (Lib.roundUp_eq_self_iff _ 3).mpr (Nat.dvd_mul_right 8 _)
    refine ⟨.stack (stackAfter words floats), ?_, ?_⟩
    · simp only [Nat.min_eq_right (Nat.le_of_not_lt h), Nat.lt_irrefl, if_false, halign]
      simp only [Except.ok.injEq, Prod.mk.injEq, AbiWalk.mk.injEq, stackAfter, true_and]
      omega
    · intro size
      simp only [AbiLocation.places, if_neg h]

theorem assignArg_smallInt (os : TargetOs) (name : String) (words floats align : Nat) {size : Nat}
    (hsize : size ≤ 8) :
    ∃ loc, assignArg os name (calleeWalk words floats) (.int size align) =
          .ok (loc, calleeWalk (words + 1) floats) ∧
      loc.places (.int size align) = [intPlace words floats] := by
  unfold assignArg calleeWalk intPlace
  by_cases h : words < 8
  · refine ⟨.gpr (.gpr words), ?_, ?_⟩
    · simp only [if_pos hsize, Nat.min_eq_left (Nat.le_of_lt h), if_pos h, Except.ok.injEq,
        Prod.mk.injEq, AbiWalk.mk.injEq, stackAfter, true_and]
      omega
    · simp only [AbiLocation.places, if_pos h]
  · refine ⟨.stack (stackAfter words floats), ?_, ?_⟩
    · simp only [if_pos hsize, Nat.min_eq_right (Nat.le_of_not_lt h), Nat.lt_irrefl, if_false,
        Except.ok.injEq, Prod.mk.injEq, AbiWalk.mk.injEq, stackAfter, true_and]
      omega
    · simp only [AbiLocation.places, if_neg h, if_pos hsize]

/-- The pair case with registers left: only an odd register number under the
    even-pair rule moves the pair away from the next free register. -/
theorem assignArg_wideInt_regs (os : TargetOs) (name : String) (floats : Nat) {words size : Nat}
    (hlo : 8 < size) (hhi : size ≤ 16) (hwords : words ≤ 6) :
    ∃ gpr, assignArg os name (calleeWalk words floats) (.int size 16) =
        .ok (.gprPair (.gpr gpr) (.gpr (gpr + 1)),
          ⟨gpr + 2, min floats 8, stackAfter words floats⟩) ∧
      (gpr = words ↔ (os.requiresEvenGprPairs = true → words % 2 = 0)) := by
  have hmin : min words 8 = words := Nat.min_eq_left (by omega)
  cases hos : os.requiresEvenGprPairs with
  | false =>
    refine ⟨words, ?_, by simp⟩
    simp only [assignArg, calleeWalk, hmin, hos, if_neg (Nat.not_le.mpr hlo), if_pos hhi,
      Bool.false_eq_true, if_false, if_pos hwords]
  | true =>
    refine ⟨words + words % 2, ?_, by simp only [true_implies]; omega⟩
    have hle : words + words % 2 ≤ 6 := by omega
    simp only [assignArg, calleeWalk, hmin, hos, if_neg (Nat.not_le.mpr hlo), if_pos hhi,
      if_true, if_pos hle]

/-- The pair case without two registers left. -/
theorem assignArg_wideInt_stack (os : TargetOs) (name : String) (floats : Nat) {words size : Nat}
    (hlo : 8 < size) (hhi : size ≤ 16) (hwords : 6 < words) :
    assignArg os name (calleeWalk words floats) (.int size 16) =
      .ok (.stack (alignTo (stackAfter words floats) 16),
        ⟨8, min floats 8, alignTo (stackAfter words floats) 16 + 16⟩) := by
  have hgpr : ¬ (if os.requiresEvenGprPairs = true then min words 8 + min words 8 % 2
      else min words 8) ≤ 6 := by
    split <;> omega
  simp only [assignArg, calleeWalk, if_neg (Nat.not_le.mpr hlo), if_pos hhi]
  exact if_neg hgpr

theorem wideInt_places_length {os : TargetOs} {name : String} {words floats size : Nat}
    {loc : AbiLocation} {w' : AbiWalk} (hlo : 8 < size) (hhi : size ≤ 16)
    (hassign : assignArg os name (calleeWalk words floats) (.int size 16) = .ok (loc, w')) :
    (loc.places (.int size 16)).length = 2 := by
  by_cases hwords : words ≤ 6
  · obtain ⟨gpr, hregs, -⟩ := assignArg_wideInt_regs os name floats hlo hhi hwords
    obtain ⟨rfl, -⟩ := Prod.mk.inj (Except.ok.inj (hregs.symm.trans hassign))
    rfl
  · have hstack := assignArg_wideInt_stack os name floats hlo hhi (Nat.not_le.mp hwords)
    obtain ⟨rfl, -⟩ := Prod.mk.inj (Except.ok.inj (hstack.symm.trans hassign))
    simp only [AbiLocation.places, if_neg (Nat.not_le.mpr hlo), List.length_cons,
      List.length_nil]

/-- The caller and `assignAbi` on an argument of the pair case: the places
    coincide exactly under the condition for 128-bit integers, and then the
    counters stay in step. -/
theorem assignArg_wideInt (os : TargetOs) (name : String) (words floats : Nat) {size : Nat}
    (hlo : 8 < size) (hhi : size ≤ 16) :
    ∃ loc w', assignArg os name (calleeWalk words floats) (.int size 16) = .ok (loc, w') ∧
      (loc.places (.int size 16) = [intPlace words floats, intPlace (words + 1) floats] ↔
        ArgAgrees os words floats (.i 128)) ∧
      (ArgAgrees os words floats (.i 128) → w' = calleeWalk (words + 2) floats) := by
  by_cases hwords : words ≤ 6
  · obtain ⟨gpr, hassign, hgpr⟩ := assignArg_wideInt_regs os name floats hlo hhi hwords
    have hagrees : ArgAgrees os words floats (.i 128) ↔ gpr = words := by
      rw [hgpr, argAgrees_i128_of_le hwords]
    refine ⟨_, _, hassign, ?_, ?_⟩
    · rw [hagrees]
      simp only [AbiLocation.places, intPlace, if_pos (show words < 8 by omega),
        if_pos (show words + 1 < 8 by omega), List.cons.injEq, ArgPlace.reg.injEq,
        Register.gpr_inj, and_true]
      omega
    · intro h
      obtain rfl := hagrees.mp h
      simp only [calleeWalk, stackAfter, AbiWalk.mk.injEq, true_and]
      omega
  · have hassign := assignArg_wideInt_stack os name floats hlo hhi (Nat.not_le.mp hwords)
    refine ⟨_, _, hassign, ?_⟩
    by_cases h7 : words < 8
    · -- `x7` is left: the caller splits the argument, the callee does not.
      have hagrees : ¬ ArgAgrees os words floats (.i 128) := by
        rw [argAgrees_i128_of_lt (Nat.not_le.mp hwords)]
        omega
      refine ⟨?_, fun h => absurd h hagrees⟩
      refine ⟨fun h => ?_, fun h => absurd h hagrees⟩
      simp [AbiLocation.places, intPlace, h7, Nat.not_le.mpr hlo] at h
    · have halign : alignTo (stackAfter words floats) 16 = stackAfter words floats ↔
          ((words - 8) + (floats - 8)) % 2 = 0 := by
        have := Lib.roundUp_eq_self_iff (stackAfter words floats) 4
        simp only [alignTo, if_neg (show ¬ 16 ≤ 1 by omega)]
        rw [show (2 : Nat) ^ 4 = 16 from rfl] at this
        rw [this, stackAfter]
        omega
      have hagrees : ArgAgrees os words floats (.i 128) ↔
          alignTo (stackAfter words floats) 16 = stackAfter words floats := by
        rw [halign, argAgrees_i128_of_lt (Nat.not_le.mp hwords)]
        omega
      refine ⟨?_, ?_⟩
      · rw [hagrees]
        simp only [AbiLocation.places, intPlace, if_neg h7, if_neg (Nat.not_le.mpr hlo),
          if_neg (show ¬ words + 1 < 8 by omega), List.cons.injEq, ArgPlace.stack.injEq,
          and_true]
        refine ⟨fun h => h.1, fun h => ⟨h, ?_⟩⟩
        rw [h]
        simp only [stackAfter]
        omega
      · intro h
        rw [hagrees.mp h]
        simp only [calleeWalk, stackAfter, AbiWalk.mk.injEq, true_and]
        omega

/-! ## One argument -/

theorem nextPowerOfTwo_wideInt {size : Nat} (hlo : 8 < size) (hhi : size ≤ 16) :
    nextPowerOfTwo size = 16 := by
  interval_cases size <;> rfl

/-- A zero-sized argument has no location, yet the caller spends a word on it. -/
theorem zeroSized_places_ne {cls : AbiClass} {words floats : Nat} {ty : Ty}
    (hfp : fpKind ty = none) :
    AbiLocation.void.places cls ≠ callerPlaces words floats ty := by
  unfold callerPlaces
  rw [hfp]
  cases is128BitInteger ty <;> simp [AbiLocation.places]

/-- Only a zero-sized aggregate is accepted, and it gets no location. -/
theorem aggregate_void {os : TargetOs} {name : String} {w w' : AbiWalk} {ty : Ty}
    {cls : AbiClass} {loc : AbiLocation} (hcls : abiClass ty = .ok cls)
    (hagg : abiClass ty = (abiTypeLayout ty).bind fun layout =>
      .ok (.aggregate layout.1 layout.2))
    (hassign : assignArg os name w cls = .ok (loc, w')) : loc = .void := by
  rw [hagg] at hcls
  cases hlayout : abiTypeLayout ty with
  | error e =>
    rw [hlayout] at hcls
    cases hcls
  | ok layout =>
    rw [hlayout] at hcls
    obtain rfl : AbiClass.aggregate layout.1 layout.2 = cls := Except.ok.inj hcls
    by_cases hsize : layout.1 = 0
    · simp only [assignArg, if_pos hsize, Except.ok.injEq, Prod.mk.injEq] at hassign
      exact hassign.1.symm
    · simp only [assignArg, if_neg hsize, reduceCtorEq] at hassign

theorem assignArg_int_step {os : TargetOs} {name : String} {words floats width : Nat}
    {sign : Signedness} {cls : AbiClass} {loc : AbiLocation} {w' : AbiWalk}
    (hcls : abiClass (.int width sign) = .ok cls)
    (hassign : assignArg os name (calleeWalk words floats) cls = .ok (loc, w')) :
    (loc.places cls = callerPlaces words floats (.int width sign) ↔
        ArgAgrees os words floats (.int width sign)) ∧
      (ArgAgrees os words floats (.int width sign) →
        w' = calleeWalk (words + intWords (.int width sign))
          (floats + fpScalars (.int width sign))) := by
  obtain rfl : AbiClass.int (max ((width + 7) / 8) 1)
      (min (nextPowerOfTwo (max ((width + 7) / 8) 1)) 16) = cls := Except.ok.inj hcls
  set size := max ((width + 7) / 8) 1 with hsize
  by_cases h8 : size ≤ 8
  · -- one word on both sides
    have hw : width ≤ 64 := by omega
    have h128 : is128BitInteger (.int width sign) = false := by
      simp only [is128BitInteger, beq_eq_false_iff_ne]
      omega
    obtain ⟨loc', hassign', hplaces⟩ := assignArg_smallInt os name words floats
      (min (nextPowerOfTwo size) 16) h8
    obtain ⟨rfl, rfl⟩ := Prod.mk.inj (Except.ok.inj (hassign'.symm.trans hassign))
    have hagrees : ArgAgrees os words floats (.int width sign) := .inl hw
    refine ⟨⟨fun _ => hagrees, fun _ => ?_⟩, fun _ => ?_⟩
    · rw [hplaces]
      simp only [callerPlaces, fpKind, h128, Bool.false_eq_true, if_false]
    · simp only [intWords, fpScalars, fpKind, h128, Option.isSome_none, Bool.false_eq_true,
        if_false, Nat.add_zero]
  · have h16 : size ≤ 16 := by
      by_contra hgt
      simp only [assignArg, if_neg h8, if_neg hgt, reduceCtorEq] at hassign
    rw [nextPowerOfTwo_wideInt (Nat.not_le.mp h8) h16, Nat.min_self] at hassign ⊢
    obtain ⟨loc', w'', hassign', hplaces, hstep⟩ := assignArg_wideInt os name words floats
      (Nat.not_le.mp h8) h16
    obtain ⟨rfl, rfl⟩ := Prod.mk.inj (Except.ok.inj (hassign'.symm.trans hassign))
    by_cases hw : width = 128
    · subst hw
      refine ⟨?_, hstep⟩
      exact hplaces
    · -- 65 to 127 bits: two words for the callee, one for the caller
      have hagrees : ¬ ArgAgrees os words floats (.int width sign) := by
        simp only [ArgAgrees]
        omega
      have h128 : is128BitInteger (.int width sign) = false := by
        simp only [is128BitInteger, beq_eq_false_iff_ne]
        exact hw
      refine ⟨⟨fun h => ?_, fun h => absurd h hagrees⟩, fun h => absurd h hagrees⟩
      simp only [callerPlaces, fpKind, h128, Bool.false_eq_true, if_false] at h
      have hlen := wideInt_places_length (Nat.not_le.mp h8) h16 hassign
      rw [h] at hlen
      cases hlen

/-- One argument on both sides: the places coincide exactly when
    `ArgAgrees`, and then the counters stay in step. -/
theorem assignArg_step {os : TargetOs} {name : String} {words floats : Nat} {ty : Ty}
    {cls : AbiClass} {loc : AbiLocation} {w' : AbiWalk} (hcls : abiClass ty = .ok cls)
    (hassign : assignArg os name (calleeWalk words floats) cls = .ok (loc, w')) :
    (loc.places cls = callerPlaces words floats ty ↔ ArgAgrees os words floats ty) ∧
      (ArgAgrees os words floats ty →
        w' = calleeWalk (words + intWords ty) (floats + fpScalars ty)) := by
  have hfloat : ∀ fp : FpKind, fpKind ty = some fp → ArgAgrees os words floats ty →
      cls = .float (match fp with | .f64 => 8 | .f32 => 4) → 
      (loc.places cls = callerPlaces words floats ty ↔ ArgAgrees os words floats ty) ∧
      (ArgAgrees os words floats ty →
        w' = calleeWalk (words + intWords ty) (floats + fpScalars ty)) := by
    rintro fp hfp hagrees rfl
    obtain ⟨loc', hassign', hplaces⟩ := assignArg_float os name words floats fp
    obtain ⟨rfl, rfl⟩ := Prod.mk.inj (Except.ok.inj (hassign'.symm.trans hassign))
    refine ⟨⟨fun _ => hagrees, fun _ => ?_⟩, fun _ => ?_⟩
    · rw [hplaces]
      simp only [callerPlaces, hfp]
    · simp only [intWords, fpScalars, hfp, Option.isSome_some, if_true, Nat.add_zero]
  have hvoid : fpKind ty = none → ¬ ArgAgrees os words floats ty → loc = .void →
      (loc.places cls = callerPlaces words floats ty ↔ ArgAgrees os words floats ty) ∧
      (ArgAgrees os words floats ty →
        w' = calleeWalk (words + intWords ty) (floats + fpScalars ty)) := by
    rintro hfp hagrees rfl
    exact ⟨⟨fun h => absurd h (zeroSized_places_ne hfp), fun h => absurd h hagrees⟩,
      fun h => absurd h hagrees⟩
  cases ty with
  | int width sign => exact assignArg_int_step hcls hassign
  | pointer =>
    obtain rfl : AbiClass.int 8 8 = cls := Except.ok.inj hcls
    obtain ⟨loc', hassign', hplaces⟩ := assignArg_smallInt os name words floats 8 (Nat.le_refl 8)
    obtain ⟨rfl, rfl⟩ := Prod.mk.inj (Except.ok.inj (hassign'.symm.trans hassign))
    exact ⟨⟨fun _ => trivial, fun _ => hplaces⟩, fun _ => rfl⟩
  | fp32 => exact hfloat .f32 rfl trivial (Except.ok.inj hcls).symm
  | fp64 => exact hfloat .f64 rfl trivial (Except.ok.inj hcls).symm
  | void =>
    obtain rfl : AbiClass.void = cls := Except.ok.inj hcls
    exact hvoid rfl id (Prod.mk.inj (Except.ok.inj hassign)).1.symm
  | unit =>
    obtain rfl : AbiClass.void = cls := Except.ok.inj hcls
    exact hvoid rfl id (Prod.mk.inj (Except.ok.inj hassign)).1.symm
  | array elem len => exact hvoid rfl id (aggregate_void hcls rfl hassign)
  | struct fields => exact hvoid rfl id (aggregate_void hcls rfl hassign)
  | opaqueStruct => exact hvoid rfl id (aggregate_void hcls rfl hassign)
  | vector elem numElems => cases hcls

/-! ## Whole argument lists -/

theorem assignArgs_cons_ok {os : TargetOs} {name : String} {w : AbiWalk} {cls : AbiClass}
    {classes : List AbiClass} {locs : List AbiLocation}
    (h : assignArgs os name w (cls :: classes) = .ok locs) :
    ∃ loc w' locs', assignArg os name w cls = .ok (loc, w') ∧
      assignArgs os name w' classes = .ok locs' ∧ locs = loc :: locs' := by
  simp only [assignArgs, bind, Except.bind] at h
  cases hassign : assignArg os name w cls with
  | error e =>
    rw [hassign] at h
    cases h
  | ok r =>
    rw [hassign] at h
    cases hrest : assignArgs os name r.2 classes with
    | error e =>
      simp only [hrest] at h
      cases h
    | ok locs' =>
      simp only [hrest] at h
      exact ⟨r.1, r.2, locs', rfl, hrest, (Except.ok.inj h).symm⟩

theorem functionAbiClasses_cons_ok {ty : Ty} {tys : List Ty} {classes : List AbiClass}
    (h : functionAbiClasses (ty :: tys) = .ok classes) :
    ∃ cls classes', abiClass ty = .ok cls ∧ functionAbiClasses tys = .ok classes' ∧
      classes = cls :: classes' := by
  simp only [functionAbiClasses, bind, Except.bind] at h
  cases hcls : abiClass ty with
  | error e =>
    rw [hcls] at h
    cases h
  | ok cls =>
    rw [hcls] at h
    cases hrest : functionAbiClasses tys with
    | error e =>
      simp only [hrest] at h
      cases h
    | ok classes' =>
      simp only [hrest] at h
      exact ⟨cls, classes', rfl, rfl, (Except.ok.inj h).symm⟩

/-- The places of a call's arguments, in argument order. -/
def callPlaces (moves : List (List (Register × CallArgDst))) : List (List ArgPlace) :=
  moves.map (·.map (·.2.place))

/-- Both walks from the same counters: the places of all arguments coincide
    exactly when every argument agrees. -/
theorem callPlaces_eq_iff {os : TargetOs} {name : String} (args : List LoweredArg) :
    ∀ {words floats : Nat} {classes : List AbiClass} {locs : List AbiLocation},
      functionAbiClasses (args.map (·.ty)) = .ok classes →
      assignArgs os name (calleeWalk words floats) classes = .ok locs →
      (callPlaces (placeCallArgsFrom (callerWalk words floats) args) =
          List.zipWith AbiLocation.places classes locs ↔
        ConventionsAgreeFrom os words floats (args.map (·.ty))) := by
  induction args with
  | nil =>
    intro words floats classes locs hclasses hassign
    obtain rfl : [] = classes := Except.ok.inj hclasses
    exact ⟨fun _ => conventionsAgreeFrom_nil os words floats, fun _ => rfl⟩
  | cons arg args ih =>
    intro words floats classes locs hclasses hassign
    obtain ⟨cls, classes', hcls, hclasses', rfl⟩ := functionAbiClasses_cons_ok hclasses
    obtain ⟨loc, w', locs', harg, hargs, rfl⟩ := assignArgs_cons_ok hassign
    obtain ⟨hplaces, hwalk⟩ := placeCallArg_callerWalk arg words floats
    obtain ⟨hiff, hstep⟩ := assignArg_step hcls harg
    have hcall : callPlaces (placeCallArgsFrom (callerWalk words floats) (arg :: args)) =
        callerPlaces words floats arg.ty ::
          callPlaces (placeCallArgsFrom (callerWalk (words + intWords arg.ty)
            (floats + fpScalars arg.ty)) args) := by
      simp only [placeCallArgsFrom, callPlaces, List.map_cons, hplaces, hwalk]
    rw [hcall, List.zipWith_cons_cons, List.cons.injEq, List.map_cons,
      conventionsAgreeFrom_cons, ← hiff]
    constructor
    · rintro ⟨hhead, htail⟩
      obtain rfl := hstep (hiff.mp hhead.symm)
      exact ⟨hhead.symm, (ih hclasses' hargs).mp htail⟩
    · rintro ⟨hhead, htail⟩
      obtain rfl := hstep (hiff.mp hhead)
      exact ⟨hhead.symm, (ih hclasses' hargs).mpr htail⟩

/-! ## The outgoing area -/

theorem stackAfter_mono {words words' floats floats' : Nat} (hwords : words ≤ words')
    (hfloats : floats ≤ floats') : stackAfter words floats ≤ stackAfter words' floats' := by
  unfold stackAfter
  omega

theorem takeGpr_eq (words floats : Nat) :
    takeGpr (min words 8) (stackAfter words floats) =
      (min (words + 1) 8, stackAfter (words + 1) floats) := by
  unfold takeGpr stackAfter
  split <;> simp only [Prod.mk.injEq] <;> omega

/-- The sizing walk counts the same words and scalars as the placing walk. -/
theorem outgoingStackBytesFrom_eq (tys : List Ty) : ∀ words floats : Nat,
    outgoingStackBytesFrom (min words 8) (min floats 8) (stackAfter words floats) tys =
      stackAfter (words + (tys.map intWords).sum) (floats + (tys.map fpScalars).sum) := by
  induction tys with
  | nil => intro words floats; rfl
  | cons ty tys ih =>
    intro words floats
    simp only [outgoingStackBytesFrom, takeGpr_eq, ih, List.map_cons, List.sum_cons,
      ← Nat.add_assoc]
    by_cases hfp : (fpKind ty).isSome = true
    · have hint : intWords ty = 0 := by simp only [intWords, if_pos hfp]
      have hsc : fpScalars ty = 1 := by simp only [fpScalars, if_pos hfp]
      simp only [if_pos hfp, hint, hsc, Nat.add_zero]
      by_cases hf : floats < 8
      · have hmin : min floats 8 + 1 = min (floats + 1) 8 := by omega
        have hst : stackAfter words floats = stackAfter words (floats + 1) := by
          unfold stackAfter
          omega
        rw [if_pos (by omega), hmin, hst, ih]
      · have hmin : min floats 8 = min (floats + 1) 8 := by omega
        have hst : stackAfter words floats + 8 = stackAfter words (floats + 1) := by
          unfold stackAfter
          omega
        rw [if_neg (by omega), hmin, hst, ih]
    · have hsc : fpScalars ty = 0 := by simp only [fpScalars, if_neg hfp]
      simp only [if_neg hfp, hsc, Nat.add_zero]
      by_cases h128 : is128BitInteger ty = true
      · simp only [intWords, if_neg hfp, if_pos h128, show words + 1 + 1 = words + 2 from rfl]
      · simp only [intWords, if_neg hfp, if_neg h128]

theorem callerPlaces_stack_le {words floats offset : Nat} {ty : Ty}
    (h : ArgPlace.stack offset ∈ callerPlaces words floats ty) :
    offset + 8 ≤ stackAfter (words + intWords ty) (floats + fpScalars ty) := by
  unfold callerPlaces at h
  unfold intWords fpScalars
  cases hfp : fpKind ty with
  | some fp =>
    simp only [hfp, List.mem_singleton, fpPlace] at h
    split at h
    · cases h
    · obtain rfl := ArgPlace.stack.inj h
      simp only [Option.isSome_some, if_true, stackAfter]
      omega
  | none =>
    simp only [hfp] at h
    simp only [Option.isSome_none, Bool.false_eq_true, if_false, Nat.add_zero]
    have hint : ∀ n, ArgPlace.stack offset = intPlace n floats →
        offset + 8 ≤ stackAfter (n + 1) floats := by
      intro n hn
      unfold intPlace at hn
      split at hn
      · cases hn
      · obtain rfl := ArgPlace.stack.inj hn
        simp only [stackAfter]
        omega
    split at h
    · rw [if_pos ‹_›]
      simp only [List.mem_cons, List.not_mem_nil, or_false] at h
      rcases h with h | h
      · exact Nat.le_trans (hint _ h) (stackAfter_mono (by omega) (Nat.le_refl _))
      · exact hint _ h
    · rw [if_neg ‹_›]
      exact hint _ (List.mem_singleton.mp h)

/-- Every stack slot of a call lies below the bytes the sizing walk returns. -/
theorem callPlaces_stack_le (args : List LoweredArg) : ∀ {words floats offset : Nat},
    ArgPlace.stack offset ∈
        (callPlaces (placeCallArgsFrom (callerWalk words floats) args)).flatten →
      offset + 8 ≤ stackAfter (words + ((args.map (·.ty)).map intWords).sum)
        (floats + ((args.map (·.ty)).map fpScalars).sum) := by
  induction args with
  | nil => intro words floats offset h; simp [placeCallArgsFrom, callPlaces] at h
  | cons arg args ih =>
    intro words floats offset h
    obtain ⟨hplaces, hwalk⟩ := placeCallArg_callerWalk arg words floats
    simp only [placeCallArgsFrom, callPlaces, List.map_cons, hplaces, hwalk,
      List.flatten_cons, List.mem_append] at h
    simp only [List.map_cons, List.sum_cons, ← Nat.add_assoc]
    rcases h with h | h
    · refine Nat.le_trans (callerPlaces_stack_le h) (stackAfter_mono ?_ ?_) <;> omega
    · exact ih h

theorem le_alignTo16 (bytes : Nat) : bytes ≤ alignTo16 bytes := Lib.le_roundUp bytes 4

/-- The maximum over the calls of a body, for the step of the fold that takes it. -/
theorem le_foldl_of_call {step : Nat → BodyOp → Nat} (hother : ∀ acc, step acc .other = acc)
    (hcall : ∀ acc args, step acc (.call args) = max acc (outgoingStackBytesForCall args))
    (ops : List BodyOp) (acc : Nat) : acc ≤ ops.foldl step acc ∧
      ∀ args, BodyOp.call args ∈ ops → outgoingStackBytesForCall args ≤ ops.foldl step acc := by
  induction ops generalizing acc with
  | nil => exact ⟨Nat.le_refl _, fun _ h => absurd h List.not_mem_nil⟩
  | cons op ops ih =>
    rw [List.foldl_cons]
    cases op with
    | other =>
      obtain ⟨hacc, hmem⟩ := ih acc
      rw [hother]
      refine ⟨hacc, fun args h => hmem args ?_⟩
      simpa only [List.mem_cons, reduceCtorEq, false_or] using h
    | call args₀ =>
      obtain ⟨hacc, hmem⟩ := ih (max acc (outgoingStackBytesForCall args₀))
      rw [hcall]
      refine ⟨Nat.le_trans (Nat.le_max_left _ _) hacc, fun args h => ?_⟩
      -- This call is below the maximum taken here, a later one by induction.
      rcases List.mem_cons.mp h with h | h
      · obtain rfl := BodyOp.call.inj h
        exact Nat.le_trans (Nat.le_max_right _ _) hacc
      · exact hmem args h

theorem outgoing_le_max {blocks : List (List BodyOp)} {body : List BodyOp} {args : List Ty}
    (hbody : body ∈ blocks) (hcall : BodyOp.call args ∈ body) :
    outgoingStackBytesForCall args ≤ maxOutgoingStackBytes blocks := by
  unfold maxOutgoingStackBytes
  refine Nat.le_trans ?_ (le_alignTo16 _)
  exact (le_foldl_of_call (fun _ => rfl) (fun _ _ => rfl) blocks.flatten 0).2 args
    (List.mem_flatten.mpr ⟨body, hbody, hcall⟩)

/-! ## Agreement of caller and callee -/

/-- The caller places every argument where `abi` tells the callee to read it,
    and its stack slots lie inside the outgoing area of every function that
    contains the call. -/
structure CallMatchesAbi (abi : FunctionAbi) (classes : List AbiClass)
    (args : List LoweredArg) : Prop where
  places : callPlaces (placeCallArgs args) = List.zipWith AbiLocation.places classes abi.args
  inArea : ∀ blocks body, body ∈ blocks → BodyOp.call (args.map (·.ty)) ∈ body →
    ∀ src offset, (src, CallArgDst.stack offset) ∈ argMoves args →
      offset + 8 ≤ maxOutgoingStackBytes blocks

/-- The stack slots of a call lie inside the outgoing area, whatever the
    argument types. -/
theorem argMoves_inArea (args : List LoweredArg) (blocks : List (List BodyOp))
    (body : List BodyOp) (hbody : body ∈ blocks)
    (hcall : BodyOp.call (args.map (·.ty)) ∈ body) (src : Register) (offset : Nat)
    (hmove : (src, CallArgDst.stack offset) ∈ argMoves args) :
    offset + 8 ≤ maxOutgoingStackBytes blocks := by
  have hplace : ArgPlace.stack offset ∈ (callPlaces (placeCallArgs args)).flatten := by
    simp only [argMoves, List.mem_flatten] at hmove
    obtain ⟨moves, hmoves, hmem⟩ := hmove
    simp only [callPlaces, List.mem_flatten, List.mem_map]
    exact ⟨_, ⟨moves, hmoves, rfl⟩, List.mem_map.mpr ⟨_, hmem, rfl⟩⟩
  have hle : offset + 8 ≤ stackAfter (0 + _) (0 + _) := callPlaces_stack_le args hplace
  have hsize := outgoingStackBytesFrom_eq (args.map (·.ty)) 0 0
  refine Nat.le_trans hle ?_
  rw [← hsize]
  exact outgoing_le_max hbody hcall

/-- Caller and callee agree on the arguments of a call exactly when no
    argument is zero-sized or an integer of 65 to 127 bits and every 128-bit
    integer starts where both walks can place it. -/
theorem callMatchesAbi_iff (os : TargetOs) (name : String) (args : List LoweredArg)
    (classes : List AbiClass) (result : AbiClass) (abi : FunctionAbi)
    (h_classes : functionAbiClasses (args.map (·.ty)) = .ok classes)
    (h_abi : assignAbi os name classes result = .ok abi) :
    CallMatchesAbi abi classes args ↔ ConventionsAgree os (args.map (·.ty)) := by
  have hargs : assignArgs os name (calleeWalk 0 0) classes = .ok abi.args := by
    simp only [assignAbi, bind, Except.bind] at h_abi
    cases hassign : assignArgs os name ⟨0, 0, 0⟩ classes with
    | error e =>
      rw [hassign] at h_abi
      cases h_abi
    | ok locs =>
      rw [hassign] at h_abi
      cases hres : assignResult name result with
      | error e =>
        simp only [hres] at h_abi
        cases h_abi
      | ok r =>
        simp only [hres] at h_abi
        rw [← Except.ok.inj h_abi]
        exact hassign
  rw [conventionsAgree_iff_from, ← callPlaces_eq_iff args h_classes hargs]
  exact ⟨fun h => h.places, fun h => ⟨h, argMoves_inArea args⟩⟩

/-- An i64 and an i128 on Linux: the callee reads the pair from `x2`, `x3`,
    the caller writes `x1`, `x2`. -/
theorem callMatchesAbi_i64_i128_linux :
    let args : List LoweredArg :=
      [⟨.i 64, .virtual 0 .gpr64, .virtual 0 .gpr64⟩,
        ⟨.i 128, .virtual 1 .gpr64, .virtual 2 .gpr64⟩]
    ∃ classes abi, functionAbiClasses (args.map (·.ty)) = .ok classes ∧
      assignAbi .linux "callee" classes .void = .ok abi ∧ ¬ CallMatchesAbi abi classes args := by
  refine ⟨[.int 8 8, .int 16 16], ⟨[.gpr (.gpr 0), .gprPair (.gpr 2) (.gpr 3)], .void⟩,
    by decide, by decide, ?_⟩
  intro h
  exact absurd h.places (by decide)

/-- Two i64 and an i128 on Linux satisfy the condition. -/
theorem callMatchesAbi_i64_i64_i128_linux :
    CallMatchesAbi ⟨[.gpr (.gpr 0), .gpr (.gpr 1), .gprPair (.gpr 2) (.gpr 3)], .void⟩
      [.int 8 8, .int 8 8, .int 16 16]
      [⟨.i 64, .virtual 0 .gpr64, .virtual 0 .gpr64⟩,
        ⟨.i 64, .virtual 1 .gpr64, .virtual 1 .gpr64⟩,
        ⟨.i 128, .virtual 2 .gpr64, .virtual 3 .gpr64⟩] := by
  refine (callMatchesAbi_iff .linux "callee" _ _ .void _ (by decide) (by decide)).mpr ?_
  rw [conventionsAgree_iff_from]
  simp only [List.map_cons, List.map_nil, conventionsAgreeFrom_cons]
  refine ⟨.inl (by decide), .inl (by decide), .inr ⟨rfl, .inl ⟨by decide, fun _ => by decide⟩⟩,
    conventionsAgreeFrom_nil _ _ _⟩

end Crabbit.Aarch64
