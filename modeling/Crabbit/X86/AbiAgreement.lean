/-
  Crabbit.X86.AbiAgreement

  When a call leaves every argument word where the callee's entry block
  reads it.  Both sides are compared through one counter: the slots the
  caller has filled so far, the hidden result pointer included.
-/

import Crabbit.X86.CallLowering
import Mathlib.Tactic.IntervalCases

namespace Crabbit.X86

open Crabbit.Llvm

/-! ## Places -/

/-- A word of an argument: a register or an 8-byte slot at an offset of the
    stack-argument area. -/
inductive ArgPlace where
  | reg (reg : Register)
  | stack (offset : Nat)
  deriving DecidableEq

namespace Inst

/-- The place where an operation of the argument loop of a call leaves a
    word, after the register it takes the word from. -/
def leaves (inst : Inst) : Option (Register × ArgPlace) :=
  match inst.opcode, inst.rd, inst.rm, inst.imm with
  | .mov, some rd, some rm, _ => some (rm, .reg rd)
  | .strSpOffset, some rt, _, some offset => some (rt, .stack offset)
  | _, _, _, _ => none

/-- The place from which an operation of the entry block takes a word. -/
def readsFrom (inst : Inst) : Option ArgPlace :=
  match inst.opcode, inst.rm, inst.imm with
  | .mov, some rm, _ => some (.reg rm)
  | .ldrStackArg, _, some offset => some (.stack offset)
  | _, _, _ => none

end Inst

/-- The places an argument's entry operations read, low word first. -/
def EntryLowering.places (lowered : EntryLowering) : List ArgPlace :=
  (lowered.loads ++ lowered.copies).filterMap Inst.readsFrom

/-- Cuts the words of `arg_regs` into the words of each argument. -/
def cutArgs {α : Type} : List LoweredArg → List α → List (List α)
  | [], _ => []
  | arg :: args, words => words.take arg.regs.length :: cutArgs args (words.drop arg.regs.length)

/-- The places where a call leaves the words of each argument. -/
def callPlaces (base : Nat) (args : List LoweredArg) : List (List ArgPlace) :=
  cutArgs args (((placeArgRegs base (argRegs args)).filterMap Inst.leaves).map (·.2))

/-- Where a call has its target. -/
def CallCallee.places : CallCallee → List ArgPlace
  | .direct _ => []
  | .indirect _ => [.reg R11]

/-- The place of the `slot`-th word of a call. -/
def slotPlace (slot : Nat) : ArgPlace :=
  if slot < 6 then .reg (argGpr slot) else .stack ((slot - 6) * 8)

theorem leaves_placeArgReg (slot : Nat) (src : Register) :
    (placeArgReg slot src).leaves = some (src, slotPlace slot) := by
  unfold placeArgReg slotPlace
  split <;> rfl

theorem leaves_placeArgRegs (regs : List Register) : ∀ slot : Nat,
    ((placeArgRegs slot regs).filterMap Inst.leaves).map (·.2) =
      (List.range' slot regs.length).map slotPlace := by
  induction regs with
  | nil => intro slot; rfl
  | cons src regs ih =>
    intro slot
    simp only [placeArgRegs, List.filterMap_cons, leaves_placeArgReg, List.map_cons, ih,
      List.length_cons, List.range'_succ]

/-- Slots a caller spends on an argument. -/
def argWords (ty : Ty) : Nat := if is128BitInteger ty then 2 else 1

theorem length_regs (arg : LoweredArg) : arg.regs.length = argWords arg.ty := by
  unfold LoweredArg.regs argWords
  split <;> rfl

/-- The places of an argument that follows `words` slots. -/
def callerPlaces (words : Nat) (ty : Ty) : List ArgPlace :=
  (List.range' words (argWords ty)).map slotPlace

/-- The caller's side, argument by argument. -/
theorem callPlaces_cons (base : Nat) (arg : LoweredArg) (args : List LoweredArg) :
    callPlaces base (arg :: args) =
      callerPlaces base arg.ty :: callPlaces (base + argWords arg.ty) args := by
  have hregs : argRegs (arg :: args) = arg.regs ++ argRegs args := by
    simp only [argRegs, List.map_cons, List.flatten_cons]
  have hlen : ((List.range' base arg.regs.length).map slotPlace).length = arg.regs.length := by
    rw [List.length_map, List.length_range']
  unfold callPlaces
  rw [leaves_placeArgRegs, leaves_placeArgRegs, hregs, List.length_append,
    ← List.range'_append, List.map_append, cutArgs, List.take_left' hlen, List.drop_left' hlen,
    length_regs, Nat.one_mul]
  rfl

theorem flatten_cutArgs {α : Type} (args : List LoweredArg) (words : List α)
    (h : words.length = (argRegs args).length) : (cutArgs args words).flatten = words := by
  induction args generalizing words with
  | nil => exact (List.eq_nil_of_length_eq_zero h).symm
  | cons arg args ih =>
    have hregs : (argRegs (arg :: args)).length = arg.regs.length + (argRegs args).length := by
      simp only [argRegs, List.map_cons, List.flatten_cons, List.length_append]
    rw [cutArgs, List.flatten_cons, ih _ (by rw [List.length_drop]; omega),
      List.take_append_drop]

/-- **The call sequence** leaves the words of the arguments in their places,
    and before them the target of an indirect call in `r11`. -/
theorem lowerCall_leaves (callee : CallCallee) (args : List LoweredArg) (result : ResultLocation)
    (resultSlot : Nat) :
    ((lowerCall callee args result resultSlot).filterMap Inst.leaves).map (·.2) =
      callee.places ++ (callPlaces (argRegBase result) args).flatten := by
  have hplaces : (callPlaces (argRegBase result) args).flatten =
      ((placeArgRegs (argRegBase result) (argRegs args)).filterMap Inst.leaves).map (·.2) := by
    unfold callPlaces
    refine flatten_cutArgs args _ ?_
    rw [leaves_placeArgRegs, List.length_map, List.length_range']
  -- The stack pointer, the result's address and the call itself leave none.
  have hsub : ∀ n, ((if 0 < n then [Inst.subSpImm n] else []).filterMap Inst.leaves) = [] := by
    intro n
    split <;> rfl
  have hadd : ∀ n, ((if 0 < n then [Inst.addSpImm n] else []).filterMap Inst.leaves) = [] := by
    intro n
    split <;> rfl
  have hresult : ∀ n, ((if result = .indirectRdi then [Inst.addSpOffset RDI n] else []).filterMap
      Inst.leaves) = [] := by
    intro n
    split <;> rfl
  cases callee <;>
    simp only [lowerCall, List.filterMap_append, hsub, hadd, hresult, hplaces, List.nil_append,
      List.append_nil, List.map_append, CallCallee.places] <;> exact List.append_nil _

/-- **The entry block** takes the words of all arguments from their places, the
    stacked ones first. -/
theorem entryOps_readsFrom (args : List EntryLowering) (sretSlot : Option Nat) :
    ((entryOps args sretSlot).filterMap Inst.readsFrom).Perm
      (args.map EntryLowering.places).flatten := by
  have hsret : ((sretSlot.map fun offset => Inst.strSpOffset RDI offset).toList.filterMap
      Inst.readsFrom) = [] := by
    cases sretSlot <;> rfl
  have hcut : ∀ args : List EntryLowering, ((args.map (·.loads)).flatten ++
      (args.map (·.copies)).flatten).Perm (args.map fun a => a.loads ++ a.copies).flatten := by
    intro args
    induction args with
    | nil => exact .nil
    | cons a args ih =>
      simp only [List.map_cons, List.flatten_cons, List.append_assoc]
      refine List.Perm.append_left _ ?_
      refine (List.perm_append_comm_assoc _ _ _).trans ?_
      exact List.Perm.append_left _ ih
  have hplaces : (args.map EntryLowering.places).flatten =
      (args.map fun a => a.loads ++ a.copies).flatten.filterMap Inst.readsFrom := by
    rw [List.filterMap_flatten, List.map_map]
    rfl
  rw [entryOps, List.filterMap_append, hsret, List.append_nil, hplaces]
  exact (hcut args).filterMap _

/-! ## What the callee accepts -/

/-- Pointers and integers of up to 64 bits. -/
def IsWord : Ty → Prop
  | .pointer => True
  | .int width _ => width ≤ 64
  | _ => False

/-- Neither a pointer nor an integer: what is accepted of these is
    zero-sized. -/
def IsZeroSized : Ty → Prop
  | .pointer | .int _ _ => False
  | _ => True

/-- The outcomes of one accepted round of the callee's walk. -/
inductive Assigned (w : AbiWalk) : Ty → AbiLocation → AbiWalk → Prop
  | gpr {ty : Ty} (hword : IsWord ty) (hfree : w.gpr < 6) :
      Assigned w ty (.gpr (argGpr w.gpr)) { w with gpr := w.gpr + 1 }
  | stack {ty : Ty} (hword : IsWord ty) (hfull : 6 ≤ w.gpr) :
      Assigned w ty (.stack w.stackOffset) { w with stackOffset := w.stackOffset + 8 }
  | pair {width : Nat} (sign : Signedness) (hlo : 64 < width) (hhi : width ≤ 128)
      (hfree : w.gpr ≤ 4) :
      Assigned w (.int width sign) (.gprPair (argGpr w.gpr) (argGpr (w.gpr + 1)))
        { w with gpr := w.gpr + 2 }
  | wide {width : Nat} (sign : Signedness) (hlo : 64 < width) (hhi : width ≤ 128)
      (hfull : 4 < w.gpr) :
      Assigned w (.int width sign) (.stack (alignTo w.stackOffset 16))
        { w with stackOffset := alignTo w.stackOffset 16 + 16 }
  | void {ty : Ty} (hzero : IsZeroSized ty) : Assigned w ty .void w

theorem nextPowerOfTwo_wide {size : Nat} (hlo : 8 < size) (hhi : size ≤ 16) :
    nextPowerOfTwo size = 16 := by
  interval_cases size <;> rfl

theorem assigned_word {name : String} {w w' : AbiWalk} {ty : Ty} {size align : Nat}
    {loc : AbiLocation} (hword : IsWord ty) (hsize : size ≤ 8)
    (hassign : assignArg name w (.int size align) = .ok (loc, w')) : Assigned w ty loc w' := by
  simp only [assignArg, if_pos hsize] at hassign
  split at hassign
  · obtain ⟨rfl, rfl⟩ := Prod.mk.inj (Except.ok.inj hassign)
    exact .gpr hword ‹_›
  · obtain ⟨rfl, rfl⟩ := Prod.mk.inj (Except.ok.inj hassign)
    exact .stack hword (Nat.not_lt.mp ‹_›)

theorem assigned_int {name : String} {w w' : AbiWalk} {width : Nat} {sign : Signedness}
    {loc : AbiLocation}
    (hassign : assignArg name w
      (.int (intBytes width) (min (nextPowerOfTwo (intBytes width)) 16)) = .ok (loc, w')) :
    Assigned w (.int width sign) loc w' := by
  by_cases h8 : intBytes width ≤ 8
  · refine assigned_word ?_ h8 hassign
    unfold intBytes at h8
    show width ≤ 64
    omega
  · by_cases h16 : intBytes width ≤ 16
    · have hlo : 64 < width := by
        unfold intBytes at h8
        omega
      have hhi : width ≤ 128 := by
        unfold intBytes at h16
        omega
      rw [nextPowerOfTwo_wide (Nat.not_le.mp h8) h16, Nat.min_self] at hassign
      simp only [assignArg, if_neg h8, if_pos h16] at hassign
      split at hassign
      · obtain ⟨rfl, rfl⟩ := Prod.mk.inj (Except.ok.inj hassign)
        exact .pair sign hlo hhi (by omega)
      · obtain ⟨rfl, rfl⟩ := Prod.mk.inj (Except.ok.inj hassign)
        exact .wide sign hlo hhi (by omega)
    · simp only [assignArg, if_neg h8, if_neg h16, reduceCtorEq] at hassign

/-- Of the aggregates only the zero-sized ones are accepted. -/
theorem assigned_aggregate {name : String} {w w' : AbiWalk} {ty : Ty} {cls : AbiClass}
    {loc : AbiLocation} (hzero : IsZeroSized ty) (hcls : abiClass ty = .ok cls)
    (hagg : abiClass ty = (abiTypeLayout ty).bind fun layout =>
      .ok (.aggregate layout.1 layout.2))
    (hassign : assignArg name w cls = .ok (loc, w')) : Assigned w ty loc w' := by
  rw [hagg] at hcls
  cases hlayout : abiTypeLayout ty with
  | error e =>
    rw [hlayout] at hcls
    cases hcls
  | ok layout =>
    rw [hlayout] at hcls
    obtain rfl := Except.ok.inj hcls
    simp only [assignArg] at hassign
    split at hassign
    · obtain ⟨rfl, rfl⟩ := Prod.mk.inj (Except.ok.inj hassign)
      exact .void hzero
    · cases hassign

/-- Inversion of one round of the callee's walk. -/
theorem assigned_of_ok {name : String} {w w' : AbiWalk} {ty : Ty} {cls : AbiClass}
    {loc : AbiLocation} (hcls : abiClass ty = .ok cls)
    (hassign : assignArg name w cls = .ok (loc, w')) : Assigned w ty loc w' := by
  have hvoid : IsZeroSized ty → AbiClass.void = cls → Assigned w ty loc w' := by
    rintro hzero rfl
    obtain ⟨rfl, rfl⟩ := Prod.mk.inj (Except.ok.inj hassign)
    exact .void hzero
  cases ty with
  | int width sign =>
    obtain rfl := Except.ok.inj hcls
    exact assigned_int hassign
  | pointer =>
    obtain rfl : AbiClass.int 8 8 = cls := Except.ok.inj hcls
    exact assigned_word trivial (Nat.le_refl 8) hassign
  | fp32 => cases hcls
  | fp64 => cases hcls
  | void => exact hvoid trivial (Except.ok.inj hcls)
  | unit => exact hvoid trivial (Except.ok.inj hcls)
  | array elem len => exact assigned_aggregate trivial hcls rfl hassign
  | struct fields => exact assigned_aggregate trivial hcls rfl hassign
  | opaqueStruct => exact assigned_aggregate trivial hcls rfl hassign
  | vector elem numElems => cases hcls

/-! ## One argument -/

/-- The places that the entry operations of a location read. -/
def AbiLocation.places (ty : Ty) : AbiLocation → List ArgPlace
  | .gpr reg => [.reg reg]
  | .gprPair lo hi => [.reg lo, .reg hi]
  | .stack offset =>
    if is128BitInteger ty then [.stack offset, .stack (offset + 8)] else [.stack offset]
  | .indirectResult | .void => []

theorem places_lowerEntryArg {ty : Ty} {nextVreg : Nat} {loc : AbiLocation}
    {lowered : EntryLowering} (h : lowerEntryArg ty nextVreg loc = .ok lowered) :
    lowered.places = loc.places ty := by
  cases loc with
  | gpr reg =>
    obtain rfl := Except.ok.inj h
    rfl
  | gprPair lo hi =>
    obtain rfl := Except.ok.inj h
    rfl
  | indirectResult => cases h
  | stack offset =>
    simp only [lowerEntryArg] at h
    simp only [AbiLocation.places]
    by_cases h128 : is128BitInteger ty = true
    · rw [if_pos h128] at h ⊢
      obtain rfl := Except.ok.inj h
      rfl
    · rw [if_neg h128] at h ⊢
      obtain rfl := Except.ok.inj h
      rfl
  | void =>
    obtain rfl := Except.ok.inj h
    rfl

/-- The callee's counters when both sides have placed `words` slots. -/
def calleeWalk (words : Nat) : AbiWalk := ⟨min words 6, (words - 6) * 8⟩

/-- Caller and callee agree on an argument that follows `words` slots: a
    pointer or an integer of up to 64 bits anywhere; an `i128` that finds two
    registers, or all of them used and the stack 16-byte aligned.  Other
    integers above 64 bits take one slot at the caller and two at the callee,
    so they agree at such a place of the stack only, and only at the end of
    the list.  Zero-sized arguments take a slot at the caller alone. -/
def ArgAgrees (words : Nat) (last : Prop) : Ty → Prop
  | .pointer => True
  | .int width _ =>
    width ≤ 64 ∨ width = 128 ∧ words ≤ 4 ∨
      64 < width ∧ 6 ≤ words ∧ words % 2 = 0 ∧ (width = 128 ∨ last)
  | _ => False

theorem argAgrees_of_isWord {words : Nat} {last : Prop} {ty : Ty} (h : IsWord ty) :
    ArgAgrees words last ty := by
  cases ty with
  | pointer => trivial
  | int width sign => exact .inl h
  | _ => exact h.elim

theorem not_argAgrees_of_isZeroSized {words : Nat} {last : Prop} {ty : Ty} (h : IsZeroSized ty) :
    ¬ ArgAgrees words last ty := by
  cases ty <;> first | exact h.elim | exact id

theorem is128BitInteger_of_isWord {ty : Ty} (h : IsWord ty) : is128BitInteger ty = false := by
  cases ty with
  | int width sign =>
    have hle : width ≤ 64 := h
    simp only [is128BitInteger, beq_eq_false_iff_ne]
    omega
  | _ => rfl

theorem is128BitInteger_of_isZeroSized {ty : Ty} (h : IsZeroSized ty) :
    is128BitInteger ty = false := by
  cases ty <;> first | rfl | exact h.elim

theorem callerPlaces_one {words : Nat} {ty : Ty} (h : is128BitInteger ty = false) :
    callerPlaces words ty = [slotPlace words] := by
  simp [callerPlaces, argWords, h]

theorem callerPlaces_i128 (words : Nat) (sign : Signedness) :
    callerPlaces words (.int 128 sign) = [slotPlace words, slotPlace (words + 1)] := rfl

theorem is128BitInteger_eq_false {width : Nat} {sign : Signedness} (h : width ≠ 128) :
    is128BitInteger (.int width sign) = false := by
  simp only [is128BitInteger, beq_eq_false_iff_ne]
  exact h

theorem alignTo_16 (words : Nat) :
    alignTo ((words - 6) * 8) 16 = (words - 6 + 1) / 2 * 16 := by
  have h := Lib.roundUp_two_pow ((words - 6) * 8) 4
  simp only [alignTo, if_neg (show ¬ 16 ≤ 1 by omega)]
  rw [show (2 : Nat) ^ 4 = 16 from rfl] at h
  rw [h]
  omega

/-- A wide integer on the callee's stack is where the caller left its low
    word exactly when the registers were used up and the stack was
    aligned. -/
theorem wide_place_iff {words : Nat} (h : 4 < words) :
    ArgPlace.stack (alignTo ((words - 6) * 8) 16) = slotPlace words ↔
      6 ≤ words ∧ words % 2 = 0 := by
  rw [alignTo_16]
  unfold slotPlace
  split
  · refine iff_of_false ?_ (by omega)
    intro hplace
    cases hplace
  · rw [ArgPlace.stack.injEq]
    omega

/-- One argument on both sides, the counters being in step. -/
theorem places_eq_iff {words : Nat} {ty : Ty} {loc : AbiLocation} {w' : AbiWalk}
    (h : Assigned (calleeWalk words) ty loc w') :
    callerPlaces words ty = loc.places ty ↔ ArgAgrees words True ty := by
  cases h with
  | gpr hword hfree =>
    have hlt : words < 6 := by
      simp only [calleeWalk] at hfree
      omega
    rw [callerPlaces_one (is128BitInteger_of_isWord hword)]
    refine iff_of_true ?_ (argAgrees_of_isWord hword)
    simp only [AbiLocation.places, calleeWalk, slotPlace, if_pos hlt,
      Nat.min_eq_left (Nat.le_of_lt hlt)]
  | stack hword hfull =>
    have hge : 6 ≤ words := by
      simp only [calleeWalk] at hfull
      omega
    have h128 := is128BitInteger_of_isWord hword
    rw [callerPlaces_one h128]
    refine iff_of_true ?_ (argAgrees_of_isWord hword)
    simp only [AbiLocation.places, h128, calleeWalk, slotPlace, if_neg (Nat.not_lt.mpr hge),
      Bool.false_eq_true, if_false]
  | @pair width sign hlo hhi hfree =>
    have hle : words ≤ 4 := by
      simp only [calleeWalk] at hfree
      omega
    by_cases h128 : width = 128
    · subst h128
      rw [callerPlaces_i128]
      refine iff_of_true ?_ (.inr (.inl ⟨rfl, hle⟩))
      simp only [AbiLocation.places, calleeWalk, slotPlace, if_pos (show words < 6 by omega),
        if_pos (show words + 1 < 6 by omega), Nat.min_eq_left (show words ≤ 6 by omega)]
    · rw [callerPlaces_one (is128BitInteger_eq_false h128)]
      refine iff_of_false ?_ ?_
      · simp [AbiLocation.places]
      · simp only [ArgAgrees]
        omega
  | @wide width sign hlo hhi hfull =>
    have hgt : 4 < words := by
      simp only [calleeWalk] at hfull
      omega
    have hiff := wide_place_iff hgt
    by_cases h128 : width = 128
    · subst h128
      have hagrees : ArgAgrees words True (.int 128 sign) ↔ 6 ≤ words ∧ words % 2 = 0 := by
        simp only [ArgAgrees, true_or, and_true]
        omega
      rw [callerPlaces_i128, hagrees, ← hiff]
      simp only [AbiLocation.places, is128BitInteger, BEq.rfl, if_true, calleeWalk,
        List.cons.injEq, and_true]
      constructor
      · rintro ⟨hlow, -⟩
        exact hlow.symm
      · intro hlow
        refine ⟨hlow.symm, ?_⟩
        have hge := (hiff.mp hlow).1
        simp only [slotPlace, if_neg (Nat.not_lt.mpr hge), ArgPlace.stack.injEq] at hlow
        simp only [slotPlace, if_neg (show ¬ words + 1 < 6 by omega), ArgPlace.stack.injEq]
        omega
    · have hagrees : ArgAgrees words True (.int width sign) ↔ 6 ≤ words ∧ words % 2 = 0 := by
        simp only [ArgAgrees, or_true, and_true]
        omega
      have hone : is128BitInteger (.int width sign) = false := is128BitInteger_eq_false h128
      rw [callerPlaces_one hone, hagrees, ← hiff]
      simp only [AbiLocation.places, hone, Bool.false_eq_true, if_false, calleeWalk,
        List.cons.injEq, and_true]
      exact eq_comm
  | void hzero =>
    rw [callerPlaces_one (is128BitInteger_of_isZeroSized hzero)]
    refine iff_of_false ?_ (not_argAgrees_of_isZeroSized hzero)
    simp [AbiLocation.places]

/-- An argument that agrees wherever it stands keeps the counters in step. -/
theorem calleeWalk_step {words : Nat} {ty : Ty} {loc : AbiLocation} {w' : AbiWalk}
    (h : Assigned (calleeWalk words) ty loc w') (hagrees : ArgAgrees words False ty) :
    w' = calleeWalk (words + argWords ty) := by
  cases h with
  | gpr hword hfree =>
    simp only [calleeWalk] at hfree
    simp only [calleeWalk, argWords, is128BitInteger_of_isWord hword, AbiWalk.mk.injEq]
    grind
  | stack hword hfull =>
    simp only [calleeWalk] at hfull
    simp only [calleeWalk, argWords, is128BitInteger_of_isWord hword, AbiWalk.mk.injEq]
    grind
  | @pair width sign hlo hhi hfree =>
    simp only [calleeWalk] at hfree
    simp only [ArgAgrees, or_false] at hagrees
    obtain rfl : width = 128 := by omega
    simp only [calleeWalk, argWords, is128BitInteger, BEq.rfl, if_true, AbiWalk.mk.injEq]
    omega
  | @wide width sign hlo hhi hfull =>
    simp only [calleeWalk] at hfull
    simp only [ArgAgrees, or_false] at hagrees
    obtain rfl : width = 128 := by omega
    simp only [calleeWalk, argWords, is128BitInteger, BEq.rfl, if_true, AbiWalk.mk.injEq]
    rw [alignTo_16]
    omega
  | void hzero => exact absurd hagrees (not_argAgrees_of_isZeroSized hzero)

/-- The counters after an argument that agrees at the end of the list only:
    the callee is one slot ahead. -/
theorem calleeWalk_wide {words : Nat} {ty : Ty} {loc : AbiLocation} {w' : AbiWalk}
    (h : Assigned (calleeWalk words) ty loc w') (hagrees : ArgAgrees words True ty)
    (hlast : ¬ ArgAgrees words False ty) :
    6 ≤ words ∧ words % 2 = 0 ∧ argWords ty = 1 ∧ w' = ⟨6, (words - 6) * 8 + 16⟩ := by
  cases h with
  | gpr hword _ => exact absurd (argAgrees_of_isWord hword) hlast
  | stack hword _ => exact absurd (argAgrees_of_isWord hword) hlast
  | void hzero => exact absurd hagrees (not_argAgrees_of_isZeroSized hzero)
  | pair sign hlo hhi hfree =>
    simp only [calleeWalk] at hfree
    simp only [ArgAgrees] at hagrees hlast
    omega
  | @wide width sign hlo hhi hfull =>
    simp only [calleeWalk] at hfull
    simp only [ArgAgrees, or_true, and_true, or_false] at hagrees hlast
    have hne : width ≠ 128 := by omega
    refine ⟨by omega, by omega, ?_, ?_⟩
    · rw [argWords, is128BitInteger_eq_false hne]
      rfl
    · simp only [calleeWalk, AbiWalk.mk.injEq]
      rw [alignTo_16]
      omega

/-- With the callee one slot ahead no argument is found. -/
theorem places_ne_of_ahead {words : Nat} {ty : Ty} {loc : AbiLocation} {w' : AbiWalk}
    (h : Assigned ⟨6, (words - 6) * 8 + 16⟩ ty loc w') (hge : 6 ≤ words)
    (heven : words % 2 = 0) : callerPlaces (words + 1) ty ≠ loc.places ty := by
  have hslot : slotPlace (words + 1) = .stack ((words - 6) * 8 + 8) := by
    simp only [slotPlace, if_neg (show ¬ words + 1 < 6 by omega), ArgPlace.stack.injEq]
    omega
  have halign : alignTo ((words - 6) * 8 + 16) 16 = (words - 6) * 8 + 16 := by
    have := alignTo_16 (words + 2)
    rw [show (words + 2 - 6) * 8 = (words - 6) * 8 + 16 by omega] at this
    rw [this]
    omega
  have hhead : (callerPlaces (words + 1) ty).head? = some (.stack ((words - 6) * 8 + 8)) := by
    rw [← hslot, callerPlaces, argWords]
    split <;> rfl
  intro heq
  rw [heq] at hhead
  cases h with
  | gpr hword hfree => exact absurd hfree (Nat.lt_irrefl 6)
  | pair sign hlo hhi hfree =>
    have : (6 : Nat) ≤ 4 := hfree
    omega
  | stack hword hfull =>
    simp [AbiLocation.places, is128BitInteger_of_isWord hword] at hhead
  | wide sign hlo hhi hfull =>
    simp only [AbiLocation.places, halign] at hhead
    split at hhead <;> simp at hhead
  | void hzero => simp [AbiLocation.places] at hhead

/-! ## Whole argument lists -/

/-- Every argument of the list agrees, after the slots of the arguments
    before it and `words` more. -/
def ConventionsAgree (words : Nat) (args : List Ty) : Prop :=
  ∀ before arg after, args = before ++ arg :: after →
    ArgAgrees (words + (before.map argWords).sum) (after = []) arg

theorem conventionsAgree_cons (words : Nat) (ty : Ty) (args : List Ty) :
    ConventionsAgree words (ty :: args) ↔
      ArgAgrees words (args = []) ty ∧ ConventionsAgree (words + argWords ty) args := by
  constructor
  · intro h
    refine ⟨h [] ty args rfl, ?_⟩
    intro before arg after hsplit
    have := h (ty :: before) arg after (by rw [hsplit]; rfl)
    simpa only [List.map_cons, List.sum_cons, Nat.add_assoc] using this
  · rintro ⟨hhead, htail⟩ before arg after hsplit
    cases before with
    | nil =>
      obtain ⟨rfl, rfl⟩ := List.cons.inj hsplit
      exact hhead
    | cons b before =>
      obtain ⟨rfl, hrest⟩ := List.cons.inj hsplit
      have := htail before arg after hrest
      simpa only [List.map_cons, List.sum_cons, Nat.add_assoc] using this

theorem argAgrees_mono {words : Nat} {last last' : Prop} {ty : Ty} (himp : last → last')
    (h : ArgAgrees words last ty) : ArgAgrees words last' ty := by
  cases ty with
  | pointer => trivial
  | int width sign =>
    rcases h with h | h | ⟨hlo, hge, heven, h⟩
    · exact .inl h
    · exact .inr (.inl h)
    · exact .inr (.inr ⟨hlo, hge, heven, h.imp id himp⟩)
  | _ => exact h.elim

theorem argAbiClasses_cons_ok {ty : Ty} {tys : List Ty} {classes : List AbiClass}
    (h : argAbiClasses (ty :: tys) = .ok classes) :
    ∃ cls classes', abiClass ty = .ok cls ∧ argAbiClasses tys = .ok classes' ∧
      classes = cls :: classes' := by
  simp only [argAbiClasses, bind, Except.bind] at h
  cases hcls : abiClass ty with
  | error e =>
    rw [hcls] at h
    cases h
  | ok cls =>
    rw [hcls] at h
    cases hrest : argAbiClasses tys with
    | error e =>
      simp only [hrest] at h
      cases h
    | ok classes' =>
      simp only [hrest] at h
      exact ⟨cls, classes', rfl, rfl, (Except.ok.inj h).symm⟩

theorem assignArgs_cons_ok {name : String} {w : AbiWalk} {cls : AbiClass}
    {classes : List AbiClass} {locs : List AbiLocation}
    (h : assignArgs name w (cls :: classes) = .ok locs) :
    ∃ loc w' locs', assignArg name w cls = .ok (loc, w') ∧
      assignArgs name w' classes = .ok locs' ∧ locs = loc :: locs' := by
  simp only [assignArgs, bind, Except.bind] at h
  cases hassign : assignArg name w cls with
  | error e =>
    rw [hassign] at h
    cases h
  | ok r =>
    rw [hassign] at h
    cases hrest : assignArgs name r.2 classes with
    | error e =>
      simp only [hrest] at h
      cases h
    | ok locs' =>
      simp only [hrest] at h
      exact ⟨r.1, r.2, locs', rfl, hrest, (Except.ok.inj h).symm⟩

theorem lowerEntryArgs_cons_ok {ty : Ty} {tys : List Ty} {loc : AbiLocation}
    {locs : List AbiLocation} {nextVreg : Nat} {entry : List EntryLowering}
    (h : lowerEntryArgs (ty :: tys) (loc :: locs) nextVreg = .ok entry) :
    ∃ lowered entry', lowerEntryArg ty nextVreg loc = .ok lowered ∧
      lowerEntryArgs tys locs lowered.nextVreg = .ok entry' ∧ entry = lowered :: entry' := by
  simp only [lowerEntryArgs, bind, Except.bind] at h
  cases hlowered : lowerEntryArg ty nextVreg loc with
  | error e =>
    rw [hlowered] at h
    cases h
  | ok lowered =>
    rw [hlowered] at h
    cases hrest : lowerEntryArgs tys locs lowered.nextVreg with
    | error e =>
      simp only [hrest] at h
      cases h
    | ok entry' =>
      simp only [hrest] at h
      exact ⟨lowered, entry', rfl, hrest, (Except.ok.inj h).symm⟩

/-- Both walks from the same counter: the places of all arguments coincide
    exactly when every argument agrees. -/
theorem callPlaces_eq_iff {name : String} (args : List LoweredArg) :
    ∀ {words nextVreg : Nat} {classes : List AbiClass} {locs : List AbiLocation}
      {entry : List EntryLowering},
      argAbiClasses (args.map (·.ty)) = .ok classes →
      assignArgs name (calleeWalk words) classes = .ok locs →
      lowerEntryArgs (args.map (·.ty)) locs nextVreg = .ok entry →
      (callPlaces words args = entry.map EntryLowering.places ↔
        ConventionsAgree words (args.map (·.ty))) := by
  induction args with
  | nil =>
    intro words nextVreg classes locs entry hclasses hassign hentry
    obtain rfl : [] = classes := Except.ok.inj hclasses
    obtain rfl : [] = locs := Except.ok.inj hassign
    obtain rfl : [] = entry := Except.ok.inj hentry
    refine iff_of_true rfl ?_
    intro before arg after h
    simp at h
  | cons arg args ih =>
    intro words nextVreg classes locs entry hclasses hassign hentry
    obtain ⟨cls, classes', hcls, hclasses', rfl⟩ := argAbiClasses_cons_ok hclasses
    obtain ⟨loc, w', locs', harg, hargs, rfl⟩ := assignArgs_cons_ok hassign
    obtain ⟨lowered, entry', hlowered, hentry', rfl⟩ := lowerEntryArgs_cons_ok hentry
    have hassigned := assigned_of_ok hcls harg
    have hhead := places_eq_iff hassigned
    rw [callPlaces_cons, List.map_cons, List.cons.injEq, places_lowerEntryArg hlowered, hhead,
      List.map_cons, conventionsAgree_cons]
    by_cases hstep : ArgAgrees words False arg.ty
    · -- the counters stay in step, whatever follows
      obtain rfl := calleeWalk_step hassigned hstep
      rw [ih hclasses' hargs hentry']
      exact and_congr_left fun _ => iff_of_true (argAgrees_mono False.elim hstep)
        (argAgrees_mono False.elim hstep)
    · cases args with
      | nil =>
        obtain rfl : [] = classes' := Except.ok.inj hclasses'
        obtain rfl : [] = locs' := Except.ok.inj hargs
        obtain rfl : [] = entry' := Except.ok.inj hentry'
        have hnil : ConventionsAgree (words + argWords arg.ty) [] := by
          intro before arg after h
          simp at h
        refine and_congr ?_ (iff_of_true rfl hnil)
        simp only [List.map_nil]
      | cons next rest =>
        -- the callee runs one slot ahead, so the next argument is not found
        obtain ⟨cls', classes'', hcls', -, rfl⟩ := argAbiClasses_cons_ok hclasses'
        obtain ⟨loc', w'', locs'', harg', -, rfl⟩ := assignArgs_cons_ok hargs
        obtain ⟨lowered', entry'', hlowered', -, rfl⟩ := lowerEntryArgs_cons_ok hentry'
        refine iff_of_false ?_ ?_
        · rintro ⟨hhead', htail⟩
          obtain ⟨hge, heven, hone, rfl⟩ := calleeWalk_wide hassigned hhead' hstep
          rw [callPlaces_cons, List.map_cons, hone, places_lowerEntryArg hlowered'] at htail
          exact places_ne_of_ahead (assigned_of_ok hcls' harg') hge heven (List.cons.inj htail).1
        · rintro ⟨hlast, -⟩
          exact hstep (argAgrees_mono (fun h => by simp at h) hlast)

/-! ## The hidden result pointer -/

/-- Where the caller leaves the address of an indirect result. -/
def ResultLocation.hidden : ResultLocation → List ArgPlace
  | .indirectRdi => [.reg RDI]
  | _ => []

/-- Where the entry block reads the address of an indirect result. -/
def AbiLocation.hidden : AbiLocation → List ArgPlace
  | .indirectResult => [.reg RDI]
  | _ => []

/-- The size `abi_type_layout` gives an aggregate result and the one
    `stack_size_of` gives it lie on the same side of 16 bytes. -/
def ResultsAgree (result : Ty) : Prop :=
  isAggregate result = true → ∀ size align size',
    abiTypeLayout result = .ok (size, align) → stackSizeOf result = .ok size' →
      (16 < size ↔ 16 < size')

theorem abiClass_aggregate {ty : Ty} {cls : AbiClass} (hagg : isAggregate ty = true)
    (hcls : abiClass ty = .ok cls) :
    ∃ size align, abiTypeLayout ty = .ok (size, align) ∧ cls = .aggregate size align := by
  have hlayout : abiClass ty = (abiTypeLayout ty).bind fun layout =>
      .ok (.aggregate layout.1 layout.2) := by
    cases ty <;> first | rfl | cases hagg
  rw [hlayout] at hcls
  cases h : abiTypeLayout ty with
  | error e =>
    rw [h] at hcls
    cases hcls
  | ok layout =>
    rw [h] at hcls
    exact ⟨layout.1, layout.2, rfl, (Except.ok.inj hcls).symm⟩

theorem assignResult_aggregate {name : String} {size align : Nat} {loc : AbiLocation}
    (h : assignResult name (.aggregate size align) = .ok loc) :
    loc = .indirectResult ↔ 16 < size := by
  simp only [assignResult] at h
  split at h
  · obtain rfl := Except.ok.inj h
    simp only [reduceCtorEq, false_iff]
    omega
  · split at h
    · obtain rfl := Except.ok.inj h
      simp only [reduceCtorEq, false_iff]
      omega
    · split at h
      · obtain rfl := Except.ok.inj h
        simp only [reduceCtorEq, false_iff]
        omega
      · obtain rfl := Except.ok.inj h
        simp only [true_iff]
        omega

theorem assignResult_scalar {name : String} {ty : Ty} {cls : AbiClass} {loc : AbiLocation}
    (hagg : isAggregate ty = false) (hcls : abiClass ty = .ok cls)
    (h : assignResult name cls = .ok loc) : loc ≠ .indirectResult := by
  have hcases : (∃ size align, cls = .int size align) ∨ cls = .void := by
    cases ty with
    | int width sign => exact .inl ⟨_, _, (Except.ok.inj hcls).symm⟩
    | pointer => exact .inl ⟨_, _, (Except.ok.inj hcls).symm⟩
    | void => exact .inr (Except.ok.inj hcls).symm
    | unit => exact .inr (Except.ok.inj hcls).symm
    | fp32 => cases hcls
    | fp64 => cases hcls
    | vector elem numElems => cases hcls
    | array elem len => cases hagg
    | struct fields => cases hagg
    | opaqueStruct => cases hagg
  rintro rfl
  obtain ⟨size, align, rfl⟩ | rfl := hcases
  · simp only [assignResult] at h
    split at h
    · cases h
    · split at h <;> cases h
  · cases h

theorem resultLocation_indirect_iff {ty : Ty} {loc : ResultLocation}
    (h : resultLocationForType ty = .ok loc) :
    loc = .indirectRdi ↔ isAggregate ty = true ∧ ∃ size, stackSizeOf ty = .ok size ∧ 16 < size := by
  simp only [resultLocationForType, bind, Except.bind] at h
  cases hsize : stackSizeOf ty with
  | error e =>
    rw [hsize] at h
    cases h
  | ok size =>
    rw [hsize] at h
    simp only at h
    have hsame : (∃ size', (Except.ok size : Except X86_64DarwinErr Nat) = .ok size' ∧ 16 < size') ↔
        16 < size := by simp
    have h128 : is128BitInteger ty = true → isAggregate ty = false := by
      cases ty <;> simp [is128BitInteger, isAggregate]
    rw [hsame]
    repeat' split at h
    all_goals
      obtain rfl := Except.ok.inj h
      simp_all
    all_goals omega

/-- The hidden pointer is passed and read alike exactly when both sides put
    the result on the same side of 16 bytes. -/
theorem hidden_eq_iff {name : String} {ty : Ty} {cls : AbiClass} {abi : AbiLocation}
    {loc : ResultLocation} (hcls : abiClass ty = .ok cls) (habi : assignResult name cls = .ok abi)
    (hloc : resultLocationForType ty = .ok loc) :
    (loc = .indirectRdi ↔ abi = .indirectResult) ↔ ResultsAgree ty := by
  have hright := resultLocation_indirect_iff hloc
  cases hagg : isAggregate ty with
  | false =>
    have hleft := assignResult_scalar hagg hcls habi
    refine iff_of_true ?_ ?_
    · rw [hright, hagg]
      exact iff_of_false (fun h => by cases h.1) hleft
    · intro htrue
      rw [hagg] at htrue
      cases htrue
  | true =>
    obtain ⟨size, align, hlayout, rfl⟩ := abiClass_aggregate hagg hcls
    rw [hright, assignResult_aggregate habi]
    constructor
    · intro h _ size₁ align₁ size' h₁ hsize'
      obtain ⟨rfl, rfl⟩ := Prod.mk.inj (Except.ok.inj (hlayout.symm.trans h₁))
      rw [← h]
      constructor
      · rintro ⟨-, size'', hsize'', hlt⟩
        obtain rfl := Except.ok.inj (hsize'.symm.trans hsize'')
        exact hlt
      · exact fun hlt => ⟨hagg, size', hsize', hlt⟩
    · intro h
      constructor
      · rintro ⟨-, size', hsize', hlt⟩
        exact (h hagg size align size' hlayout hsize').mpr hlt
      · intro hlt
        cases hsize : stackSizeOf ty with
        | error e =>
          simp only [resultLocationForType, bind, Except.bind, hsize, reduceCtorEq] at hloc
        | ok size' => exact ⟨hagg, size', rfl, (h hagg size align size' hlayout hsize).mp hlt⟩

/-! ## Agreement of caller and callee -/

/-- The call leaves every word of every argument, the hidden result pointer
    included, where the entry block of the callee reads it. -/
structure CallMatchesEntry (abi : FunctionAbi) (result : ResultLocation) (args : List LoweredArg)
    (entry : List EntryLowering) : Prop where
  hidden : result.hidden = abi.result.hidden
  places : callPlaces (argRegBase result) args = entry.map EntryLowering.places

theorem hidden_eq (result : ResultLocation) (loc : AbiLocation) :
    result.hidden = loc.hidden ↔ (result = .indirectRdi ↔ loc = .indirectResult) := by
  cases result <;> cases loc <;> simp [ResultLocation.hidden, AbiLocation.hidden]

theorem assignDarwinAbi_ok {name : String} {args : List AbiClass} {result : AbiClass}
    {abi : FunctionAbi} (h : assignDarwinAbi name args result = .ok abi) :
    assignResult name result = .ok abi.result ∧
      assignArgs name ⟨if abi.result = .indirectResult then 1 else 0, 0⟩ args = .ok abi.args := by
  simp only [assignDarwinAbi, bind, Except.bind] at h
  cases hres : assignResult name result with
  | error e =>
    rw [hres] at h
    cases h
  | ok loc =>
    simp only [hres] at h
    cases hargs : assignArgs name ⟨if loc = .indirectResult then 1 else 0, 0⟩ args with
    | error e =>
      simp only [hargs] at h
      cases h
    | ok locs =>
      simp only [hargs] at h
      obtain rfl := Except.ok.inj h
      exact ⟨rfl, hargs⟩

/-- Caller and callee agree on a call exactly when they put the result on the
    same side of 16 bytes, no argument is zero-sized, every `i128` starts
    where both walks can place it, and an integer of 65 to 127 bits stands at
    the end of the list on an aligned stack. -/
theorem callMatchesEntry_iff (name : String) (args : List LoweredArg) (resultTy : Ty)
    (nextVreg : Nat) (classes : List AbiClass) (resultClass : AbiClass) (abi : FunctionAbi)
    (result : ResultLocation) (entry : List EntryLowering)
    (h_classes : functionAbiClasses (args.map (·.ty)) resultTy = .ok (classes, resultClass))
    (h_abi : assignDarwinAbi name classes resultClass = .ok abi)
    (h_result : resultLocationForType resultTy = .ok result)
    (h_entry : lowerEntryArgs (args.map (·.ty)) abi.args nextVreg = .ok entry) :
    CallMatchesEntry abi result args entry ↔
      ResultsAgree resultTy ∧ ConventionsAgree (argRegBase result) (args.map (·.ty)) := by
  obtain ⟨hassignResult, hassignArgs⟩ := assignDarwinAbi_ok h_abi
  obtain ⟨hclasses, hresultClass⟩ : argAbiClasses (args.map (·.ty)) = .ok classes ∧
      abiClass resultTy = .ok resultClass := by
    simp only [functionAbiClasses, bind, Except.bind] at h_classes
    cases hargs : argAbiClasses (args.map (·.ty)) with
    | error e =>
      rw [hargs] at h_classes
      cases h_classes
    | ok classes' =>
      simp only [hargs] at h_classes
      cases hres : abiClass resultTy with
      | error e =>
        rw [hres] at h_classes
        cases h_classes
      | ok cls =>
        simp only [hres] at h_classes
        obtain ⟨rfl, rfl⟩ := Prod.mk.inj (Except.ok.inj h_classes)
        exact ⟨rfl, rfl⟩
  rw [← hidden_eq_iff hresultClass hassignResult h_result, ← hidden_eq]
  -- with the hidden pointer agreed on, both walks start from the same counter
  have hplaces : result.hidden = abi.result.hidden →
      (callPlaces (argRegBase result) args = entry.map EntryLowering.places ↔
        ConventionsAgree (argRegBase result) (args.map (·.ty))) := by
    intro hhidden
    have hiff := (hidden_eq result abi.result).mp hhidden
    have hstart : calleeWalk (argRegBase result) =
        ⟨if abi.result = .indirectResult then 1 else 0, 0⟩ := by
      unfold argRegBase
      by_cases hind : result = .indirectRdi
      · rw [if_pos hind, if_pos (hiff.mp hind)]
        rfl
      · rw [if_neg hind, if_neg (fun h => hind (hiff.mpr h))]
        rfl
    exact callPlaces_eq_iff args hclasses (hstart ▸ hassignArgs) h_entry
  constructor
  · exact fun h => ⟨h.hidden, (hplaces h.hidden).mp h.places⟩
  · exact fun h => ⟨h.1, (hplaces h.1).mpr h.2⟩

/-- Five `i64` and an `i128`: the callee reads both halves from the stack, the
    caller leaves the low half in `r9`. -/
theorem callMatchesEntry_i128_after_five :
    let args : List LoweredArg :=
      (List.range 5).map (fun n => ⟨.i 64, .virtualGpr n, .virtualGpr n⟩) ++
        [⟨.i 128, .virtualGpr 5, .virtualGpr 6⟩]
    ∃ classes abi result entry,
      functionAbiClasses (args.map (·.ty)) .void = .ok (classes, .void) ∧
      assignDarwinAbi "callee" classes .void = .ok abi ∧
      resultLocationForType .void = .ok result ∧
      lowerEntryArgs (args.map (·.ty)) abi.args 0 = .ok entry ∧
      ¬ CallMatchesEntry abi result args entry := by
  refine ⟨[.int 8 8, .int 8 8, .int 8 8, .int 8 8, .int 8 8, .int 16 16],
    ⟨[.gpr RDI, .gpr RSI, .gpr RDX, .gpr RCX, .gpr R8, .stack 0], .void⟩, .void,
    [⟨[], [.mov (.virtualGpr 0) RDI], 1⟩, ⟨[], [.mov (.virtualGpr 1) RSI], 2⟩,
      ⟨[], [.mov (.virtualGpr 2) RDX], 3⟩, ⟨[], [.mov (.virtualGpr 3) RCX], 4⟩,
      ⟨[], [.mov (.virtualGpr 4) R8], 5⟩,
      ⟨[.ldrStackArg (.virtualGpr 5) 0, .ldrStackArg (.virtualGpr 6) 8], [], 7⟩],
    by rfl, by rfl, by rfl, by rfl, ?_⟩
  intro h
  exact absurd h.places (by decide)

/-- An `i64` and an `i128` with an indirect result satisfy the condition. -/
theorem callMatchesEntry_i64_i128_indirect :
    CallMatchesEntry ⟨[.gpr RSI, .gprPair RDX RCX], .indirectResult⟩ .indirectRdi
      [⟨.i 64, .virtualGpr 0, .virtualGpr 0⟩, ⟨.i 128, .virtualGpr 1, .virtualGpr 2⟩]
      [⟨[], [.mov (.virtualGpr 0) RSI], 1⟩,
        ⟨[], [.mov (.virtualGpr 1) RDX, .mov (.virtualGpr 2) RCX], 3⟩] := by
  refine (callMatchesEntry_iff "callee" _ (.struct [.i 64, .i 64, .i 64]) 0 [.int 8 8, .int 16 16]
    (.aggregate 24 8) _ _ _ (by rfl) (by rfl) (by rfl) (by rfl)).mpr ⟨?_, ?_⟩
  · intro _ size align size' hsize hsize'
    obtain ⟨rfl, -⟩ := Prod.mk.inj (Except.ok.inj hsize)
    obtain rfl := Except.ok.inj hsize'
    exact iff_of_true (by decide) (by decide)
  · simp only [List.map_cons, List.map_nil, conventionsAgree_cons]
    refine ⟨.inl (by decide), .inr (.inl ⟨rfl, by decide⟩), ?_⟩
    intro before arg after h
    simp at h

end Crabbit.X86
