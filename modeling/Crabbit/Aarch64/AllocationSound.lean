/-
  Crabbit.Aarch64.AllocationSound

  Soundness of the AArch64 register allocation: the assignment of
  `allocateBody` never gives one register to two values that are live
  together, keeps spilled values apart, records the callee-saved registers
  it uses, and keeps values live across a call out of caller-saved registers
  when each of them occurs at an instruction laid out before the call.
-/

import Crabbit.Aarch64.LinearScan
import Crabbit.Aarch64.LiveIntervals

namespace Crabbit.Aarch64

open Crabbit.Lib

/-! ## Pool registers -/

def callerSavedNumbers : Bank → List Nat
  | .gpr => allocatableGprs
  | .fpr => allocatableFprNumbers

def calleeSavedNumbers : Bank → List Nat
  | .gpr => calleeSavedGprs
  | .fpr => calleeSavedFprNumbers

/-- The bit of a register in the saved-register mask. -/
def maskBit (bank : Bank) (number : Nat) : Nat :=
  match bank with
  | .gpr => number
  | .fpr => 32 + number

theorem poolNumber_inj {bank : Bank} {p q : Nat} (hp : p < poolSize bank)
    (hq : q < poolSize bank) (h : poolNumber bank p = poolNumber bank q) : p = q := by
  have hall : ∀ p < poolSize bank, ∀ q < poolSize bank,
      poolNumber bank p = poolNumber bank q → p = q := by
    cases bank <;> decide
  exact hall p hp q hq h

theorem poolNumber_calleeSaved {bank : Bank} {p : Nat} (hp : p < poolSize bank)
    (h : isCalleeSavedIndex bank p = true) :
    poolNumber bank p ∈ calleeSavedNumbers bank ∧ poolNumber bank p ∉ callerSavedNumbers bank ∧
      savedRegBit bank p = maskBit bank (poolNumber bank p) := by
  have hall : ∀ p < poolSize bank, isCalleeSavedIndex bank p = true →
      poolNumber bank p ∈ calleeSavedNumbers bank ∧
        poolNumber bank p ∉ callerSavedNumbers bank ∧
        savedRegBit bank p = maskBit bank (poolNumber bank p) := by
    cases bank <;> decide
  exact hall p hp h

theorem poolNumber_callerSaved {bank : Bank} {p : Nat} (hp : p < poolSize bank)
    (h : isCalleeSavedIndex bank p = false) :
    poolNumber bank p ∈ callerSavedNumbers bank ∧
      poolNumber bank p ∉ calleeSavedNumbers bank := by
  have hall : ∀ p < poolSize bank, isCalleeSavedIndex bank p = false →
      poolNumber bank p ∈ callerSavedNumbers bank ∧
        poolNumber bank p ∉ calleeSavedNumbers bank := by
    cases bank <;> decide
  exact hall p hp h

/-! ## The interval list -/

section Intervals

variable {body : MachineBody}

theorem mem_intervalsOf {vregs : List Nat} {points : Points} {interval : LiveInterval} :
    interval ∈ intervalsOf vregs points ↔
      interval.vreg ∈ vregs ∧ points interval.vreg = some (interval.start, interval.stop) := by
  unfold intervalsOf
  rw [(List.perm_insertionSort _ _).mem_iff, List.mem_filterMap]
  constructor
  · rintro ⟨v, hv, hmap⟩
    obtain ⟨p, hp, rfl⟩ := Option.map_eq_some_iff.mp hmap
    exact ⟨hv, hp⟩
  · rintro ⟨hv, hp⟩
    exact ⟨interval.vreg, hv, by rw [hp]; rfl⟩

instance : Std.Total LiveInterval.le := ⟨fun a b => by unfold LiveInterval.le; omega⟩

instance : IsTrans LiveInterval LiveInterval.le :=
  ⟨fun a b c hab hbc => by unfold LiveInterval.le at *; omega⟩

theorem pairwise_intervalsOf {vregs : List Nat} (hnodup : vregs.Nodup) (points : Points) :
    (intervalsOf vregs points).Pairwise fun a b => a.start ≤ b.start ∧ a.vreg ≠ b.vreg := by
  have hsorted : (intervalsOf vregs points).Pairwise LiveInterval.le :=
    List.pairwise_insertionSort _ _
  have hne : (intervalsOf vregs points).Pairwise fun a b => a.vreg ≠ b.vreg := by
    refine ((List.perm_insertionSort _ _).pairwise_iff fun h => Ne.symm h).mpr ?_
    refine List.pairwise_filterMap.mpr (hnodup.imp fun {v w} hvw a ha b hb => ?_)
    obtain ⟨p, -, rfl⟩ := Option.map_eq_some_iff.mp ha
    obtain ⟨q, -, rfl⟩ := Option.map_eq_some_iff.mp hb
    exact hvw
  refine (hsorted.and hne).imp fun {a b} h => ⟨?_, h.2⟩
  rcases h.1 with h | ⟨h, -⟩
  · exact Nat.le_of_lt h
  · exact Nat.le_of_eq h

/-! ## Operands and classes -/

theorem bankOf_of_mem_virtualOperands {inst : Inst} {kind : RegisterOperandKind}
    {op : RegKey × Nat × RegisterClass} (h : op ∈ virtualOperandsWithKind inst kind) :
    (bankOf op.2.2).isSome = true := by
  obtain ⟨operand, -, hop⟩ := List.mem_filterMap.mp h
  split at hop
  · split at hop
    · split at hop
      · obtain rfl := Option.some.inj hop
        assumption
      · cases hop
    · cases hop
  · cases hop

theorem mem_allInsts {b k : Nat} {inst : Inst}
    (hinst : ((flowGraph body).block b)[k]? = some inst) : inst ∈ allInsts body :=
  List.mem_flatten.mpr ⟨_, List.mem_of_getElem? (getElem?_block hinst),
    List.mem_of_getElem? hinst⟩

/-- A register that is live around an instruction is an operand of some
    instruction, and the class recorded for it is allocatable. -/
theorem operandClass_of_liveAround {v b k : Nat} (h : (flowGraph body).LiveAround v b k) :
    v ∈ (operandClasses body).map (·.1) ∧
      ∃ cls bank, operandClass body v = some cls ∧ bankOf cls = some bank := by
  have hinst : ∃ inst ∈ allInsts body, v ∈ virtualUses inst ∨ v ∈ virtualDefs inst := by
    obtain ⟨inst, hinst, hlive⟩ := h
    have huse : ∀ {c j : Nat}, (flowGraph body).LiveAt v c j →
        ∃ inst ∈ allInsts body, v ∈ virtualUses inst ∨ v ∈ virtualDefs inst := by
      intro c j hl
      obtain ⟨c, j, i, hi, hv⟩ := hl.exists_use
      exact ⟨i, mem_allInsts hi, .inl hv⟩
    rcases hlive with hl | hl | hdef
    · exact huse hl
    · exact huse hl
    · exact ⟨inst, mem_allInsts hinst, .inr hdef⟩
  obtain ⟨inst, hmem, hv⟩ := hinst
  obtain ⟨op, hop, rfl⟩ : ∃ op ∈ virtualUseOperands inst ++ virtualDefOperands inst,
      op.2.1 = v := by
    rcases hv with hv | hv
    · obtain ⟨op, hop, rfl⟩ := List.mem_map.mp hv
      exact ⟨op, List.mem_append_left _ hop, rfl⟩
    · obtain ⟨op, hop, rfl⟩ := List.mem_map.mp hv
      exact ⟨op, List.mem_append_right _ hop, rfl⟩
  have hclasses : op.2 ∈ operandClasses body :=
    List.mem_flatMap.mpr ⟨inst, hmem, List.mem_map.mpr ⟨op, hop, rfl⟩⟩
  refine ⟨List.mem_map.mpr ⟨_, hclasses, rfl⟩, ?_⟩
  have hsome : ((operandClasses body).reverse.find? (·.1 == op.2.1)).isSome = true :=
    List.find?_isSome.mpr ⟨_, List.mem_reverse.mpr hclasses, beq_self_eq_true _⟩
  obtain ⟨found, hfound⟩ := Option.isSome_iff_exists.mp hsome
  have hin := List.mem_reverse.mp (List.mem_of_find?_eq_some hfound)
  obtain ⟨inst', -, hin'⟩ := List.mem_flatMap.mp hin
  obtain ⟨op', hop', rfl⟩ := List.mem_map.mp hin'
  have hbank : (bankOf op'.2.2).isSome = true := by
    rcases List.mem_append.mp hop' with h | h
    · exact bankOf_of_mem_virtualOperands h
    · exact bankOf_of_mem_virtualOperands h
  obtain ⟨bank, hbank⟩ := Option.isSome_iff_exists.mp hbank
  exact ⟨op'.2.2, bank, by rw [operandClass, hfound]; rfl, hbank⟩

end Intervals

/-! ## Soundness -/

section Soundness

variable {body : MachineBody}

/-- Bank and hardware number of the register a vreg is assigned. -/
def assignedNumber (body : MachineBody) (r : AllocationResult) (v : Nat) :
    Option (Bank × Nat) :=
  match operandClass body v, r.assignments v with
  | some cls, some (.phys p) => (bankOf cls).map fun bank => (bank, poolNumber bank p)
  | _, _ => none

/-- `v` is live across the call at instruction `k` of block `b`. -/
def LiveAcrossCall (body : MachineBody) (v b k : Nat) : Prop :=
  ∃ inst, ((flowGraph body).block b)[k]? = some inst ∧ inst.isCall = true ∧
    v ∉ virtualDefs inst ∧ (flowGraph body).LiveAt v b (k + 1)

/-- What holds of an allocation whatever the body. -/
structure AllocationSafe (body : MachineBody) (r : AllocationResult) : Prop where
  /-- Values live together never share a register. -/
  distinct : ∀ v w b k reg, v ≠ w → (flowGraph body).LiveAround v b k →
    (flowGraph body).LiveAround w b k → assignedNumber body r v = some reg →
    assignedNumber body r w ≠ some reg
  /-- A vector is never in a callee-saved register. -/
  simd : ∀ v bank number, operandClass body v = some .simd128 →
    assignedNumber body r v = some (bank, number) → number ∉ calleeSavedNumbers bank
  /-- Spilled values have their own slots, inside the spill area. -/
  spilled : ∀ v slot cls, r.assignments v = some (.spill slot) →
    operandClass body v = some cls →
    slot + slotCount cls ≤ r.spillSlots ∧ (cls = .simd128 → slot % 2 = 0)
  spilled_disjoint : ∀ v w slot slot' cls cls', v ≠ w →
    r.assignments v = some (.spill slot) → r.assignments w = some (.spill slot') →
    operandClass body v = some cls → operandClass body w = some cls' →
    slot + slotCount cls ≤ slot' ∨ slot' + slotCount cls' ≤ slot
  /-- Every callee-saved register of the assignment is in the mask. -/
  saved : ∀ v bank number, assignedNumber body r v = some (bank, number) →
    number ∈ calleeSavedNumbers bank → r.savedRegsMask.testBit (maskBit bank number) = true

/-- Values live across a call are not in caller-saved registers. -/
def CallSafe (body : MachineBody) (r : AllocationResult) : Prop :=
  ∀ v b k bank number, LiveAcrossCall body v b k →
    assignedNumber body r v = some (bank, number) → number ∉ callerSavedNumbers bank

/-- Some call of the layout lies strictly between two instructions `v` is
    live around. -/
def SeenAcrossCall (body : MachineBody) (v : Nat) : Prop :=
  ∃ b k inst, ((flowGraph body).block b)[k]? = some inst ∧ inst.isCall = true ∧
    (∃ b' k', (flowGraph body).LiveAround v b' k' ∧
      layoutIndex body b' k' < layoutIndex body b k) ∧
    ∃ b' k', (flowGraph body).LiveAround v b' k' ∧
      layoutIndex body b k < layoutIndex body b' k'

/-! ### Layout indices of calls -/

theorem getElem?_flatten {α : Type} (xss : List (List α)) :
    ∀ {b k : Nat} {xs : List α} {x : α}, xss[b]? = some xs → xs[k]? = some x →
      xss.flatten[((xss.take b).map (·.length)).sum + k]? = some x := by
  induction xss with
  | nil => intro b k xs x hb; cases hb
  | cons ys xss ih =>
    intro b k xs x hb hk
    cases b with
    | zero =>
      obtain rfl : ys = xs := Option.some.inj hb
      obtain ⟨hlt, -⟩ := List.getElem?_eq_some_iff.mp hk
      simp only [List.take_zero, List.map_nil, List.sum_nil, Nat.zero_add, List.flatten_cons]
      rw [List.getElem?_append_left hlt]
      exact hk
    | succ b =>
      simp only [List.take_succ_cons, List.map_cons, List.sum_cons, List.flatten_cons,
        Nat.add_assoc]
      rw [List.getElem?_append_right (Nat.le_add_right _ _), Nat.add_sub_cancel_left]
      exact ih hb hk

theorem exists_getElem?_flatten {α : Type} (xss : List (List α)) :
    ∀ {i : Nat} {x : α}, xss.flatten[i]? = some x →
      ∃ (b k : Nat) (xs : List α), xss[b]? = some xs ∧ xs[k]? = some x ∧
        ((xss.take b).map (·.length)).sum + k = i := by
  induction xss with
  | nil => intro i x h; cases h
  | cons ys xss ih =>
    intro i x h
    rw [List.flatten_cons] at h
    by_cases hi : i < ys.length
    · rw [List.getElem?_append_left hi] at h
      exact ⟨0, i, ys, rfl, h, by simp⟩
    · rw [List.getElem?_append_right (Nat.not_lt.mp hi)] at h
      obtain ⟨b, k, xs, hb, hk, hsum⟩ := ih h
      refine ⟨b + 1, k, xs, hb, hk, ?_⟩
      rw [List.take_succ_cons, List.map_cons, List.sum_cons]
      omega

theorem mem_callIndexes_iff {i : Nat} :
    i ∈ callIndexes (allInsts body) ↔
      ∃ b k inst, ((flowGraph body).block b)[k]? = some inst ∧ inst.isCall = true ∧
        layoutIndex body b k = i := by
  have hmem : i ∈ callIndexes (allInsts body) ↔
      ∃ inst, (allInsts body)[i]? = some inst ∧ inst.isCall = true := by
    simp only [callIndexes, List.mem_map, List.mem_filter, Prod.exists, List.mk_mem_zipIdx_iff_getElem?,
      exists_eq_right]
  rw [hmem]
  constructor
  · rintro ⟨inst, hget, hcall⟩
    obtain ⟨b, k, xs, hb, hk, hsum⟩ := exists_getElem?_flatten _ hget
    refine ⟨b, k, inst, by rw [block_eq_of_getElem? hb]; exact hk, hcall, ?_⟩
    rw [layoutIndex, blockStart_eq]
    exact hsum
  · rintro ⟨b, k, inst, hinst, hcall, rfl⟩
    refine ⟨inst, ?_, hcall⟩
    rw [layoutIndex, blockStart_eq]
    exact getElem?_flatten _ (getElem?_block hinst) hinst

/-! ### The call-crossing set -/

/-- The intervals of a body, with the facts they come from. -/
def bodyIntervals (body : MachineBody) (facts : Nat → Finset Nat × Finset Nat) :
    List LiveInterval :=
  intervalsOf ((operandClasses body).map (·.1)).dedup (bodyPoints body facts)

theorem exists_interval {facts : Nat → Finset Nat × Finset Nat}
    (hfacts : (flowGraph body).liveSets = some facts) {v b k : Nat}
    (h : (flowGraph body).LiveAround v b k) :
    ∃ a ∈ bodyIntervals body facts, a.vreg = v ∧ a.start ≤ layoutIndex body b k ∧
      layoutIndex body b k ≤ a.stop := by
  obtain ⟨start, stop, hp, hstart, hstop⟩ := noted_of_liveAround hfacts h
  have hv := List.mem_dedup.mpr (operandClass_of_liveAround h).1
  exact ⟨⟨v, start, stop⟩, mem_intervalsOf.mpr ⟨hv, hp⟩, rfl, hstart, hstop⟩

/-- The set the scan calls crossing is exactly the registers some call of
    the layout separates two occurrences of. -/
theorem mem_valuesLiveAcrossCalls_iff {facts : Nat → Finset Nat × Finset Nat}
    (hfacts : (flowGraph body).liveSets = some facts) {v : Nat} :
    v ∈ valuesLiveAcrossCalls (allInsts body) (bodyIntervals body facts) ↔
      SeenAcrossCall body v := by
  simp only [valuesLiveAcrossCalls, List.mem_map, List.mem_filter, List.any_eq_true,
    Bool.and_eq_true, decide_eq_true_eq]
  constructor
  · rintro ⟨a, ⟨ha, i, hi, hlt, hgt⟩, rfl⟩
    obtain ⟨b, k, inst, hinst, hcall, rfl⟩ := mem_callIndexes_iff.mp hi
    obtain ⟨-, hp⟩ := mem_intervalsOf.mp ha
    obtain ⟨⟨b₁, k₁, h₁, hi₁⟩, ⟨b₂, k₂, h₂, hi₂⟩⟩ := sourced_bodyPoints hfacts _ _ _ hp
    exact ⟨b, k, inst, hinst, hcall, ⟨b₁, k₁, h₁, by omega⟩, b₂, k₂, h₂, by omega⟩
  · rintro ⟨b, k, inst, hinst, hcall, ⟨b₁, k₁, h₁, hlt⟩, b₂, k₂, h₂, hgt⟩
    obtain ⟨a, ha, hav, hstart, -⟩ := exists_interval hfacts h₁
    obtain ⟨a', ha', hav', -, hstop⟩ := exists_interval hfacts h₂
    obtain ⟨-, hp⟩ := mem_intervalsOf.mp ha
    obtain ⟨-, hp'⟩ := mem_intervalsOf.mp ha'
    rw [hav] at hp
    rw [hav', hp] at hp'
    obtain ⟨-, hstop'⟩ := Prod.mk.inj (Option.some.inj hp')
    refine ⟨a, ⟨ha, layoutIndex body b k, mem_callIndexes_iff.mpr ⟨b, k, inst, hinst, hcall, rfl⟩,
      by omega, by omega⟩, hav⟩

/-! ### The result of the scan -/

theorem allocateBody_spec (body : MachineBody) (weights : Option SpillWeights) :
    ∃ facts s start, (flowGraph body).liveSets = some facts ∧
      allocateBody body weights = some ⟨s.assignments, s.spillSlots, s.savedRegsMask⟩ ∧
      ScanInv (operandClass body)
        (valuesLiveAcrossCalls (allInsts body) (bodyIntervals body facts))
        ((bodyIntervals body facts).reverse ++ []) start s := by
  obtain ⟨facts, hfacts⟩ := FlowGraph.exists_liveSets (flowGraph body)
  have hclasses : ∀ a ∈ bodyIntervals body facts,
      ∃ cls bank, operandClass body a.vreg = some cls ∧ bankOf cls = some bank := by
    intro a ha
    obtain ⟨-, hp⟩ := mem_intervalsOf.mp ha
    obtain ⟨⟨b, k, hlive, -⟩, -⟩ := sourced_bodyPoints hfacts _ _ _ hp
    exact (operandClass_of_liveAround hlive).2
  obtain ⟨s, start, hs, hinv⟩ := (scanInv_initial (operandClass body)
    (valuesLiveAcrossCalls (allInsts body) (bodyIntervals body facts))).scanIntervals weights
    (bodyIntervals body facts) (fun a ha => by cases ha) (fun _ _ => Nat.zero_le _)
    (pairwise_intervalsOf (List.nodup_dedup _) _) hclasses
  refine ⟨facts, s, start, hfacts, ?_, hinv⟩
  simp only [allocateBody, collectLiveIntervals, hfacts, Option.map_some, Option.bind_eq_bind,
    Option.bind_some, linearScan]
  exact congrArg (Option.map fun s : ScanState =>
    AllocationResult.mk s.assignments s.spillSlots s.savedRegsMask) hs

theorem assignedNumber_eq_some {r : AllocationResult} {v : Nat} {reg : Bank × Nat}
    (h : assignedNumber body r v = some reg) :
    ∃ cls p, operandClass body v = some cls ∧ r.assignments v = some (.phys p) ∧
      bankOf cls = some reg.1 ∧ poolNumber reg.1 p = reg.2 := by
  unfold assignedNumber at h
  split at h
  next cls p hcls hp =>
    obtain ⟨bank, hbank, rfl⟩ := Option.map_eq_some_iff.mp h
    exact ⟨cls, p, hcls, hp, hbank, rfl⟩
  next => cases h

/-- Interval and assignment of an assigned register. -/
theorem ScanInv.holds_of_assigned {classes : Nat → Option RegisterClass}
    {callCrossing : List Nat} {done : List LiveInterval} {start : Nat} {s : ScanState}
    (h : ScanInv classes callCrossing done start s) {v : Nat} {alloc : Allocation}
    (halloc : s.assignments v = some alloc) {cls : RegisterClass} (hcls : classes v = some cls) :
    ∃ a ∈ done, a.vreg = v ∧ ∃ bank, bankOf cls = some bank ∧
      AssignmentOk classes callCrossing s a cls bank := by
  obtain ⟨a, ha, rfl⟩ := h.assigned_done v alloc halloc
  obtain ⟨cls', bank, hcls', hbank, hok, -⟩ := h.holds a ha
  obtain rfl := Option.some.inj (hcls.symm.trans hcls')
  exact ⟨a, ha, rfl, bank, hbank, hok⟩

/-- Register allocation succeeds on every body; its assignment is safe, and
    values live across a call are kept out of caller-saved registers when
    each of them is seen across some call of the layout. -/
theorem allocateBody_sound (body : MachineBody) (weights : Option SpillWeights) :
    ∃ r, allocateBody body weights = some r ∧ AllocationSafe body r ∧
      ((∀ v b k, LiveAcrossCall body v b k → SeenAcrossCall body v) → CallSafe body r) := by
  obtain ⟨facts, s, start, hfacts, hr, hinv⟩ := allocateBody_spec body weights
  refine ⟨_, hr, ⟨?_, ?_, ?_, ?_, ?_⟩, ?_⟩
  · intro v w b k reg hne hv hw hregv hregw
    obtain ⟨cls, p, hcls, hp, hbank, hnum⟩ := assignedNumber_eq_some hregv
    obtain ⟨cls', q, hcls', hq, hbank', hnum'⟩ := assignedNumber_eq_some hregw
    obtain ⟨a, ha, hav, bank, hb, hok⟩ := hinv.holds_of_assigned hp hcls
    obtain ⟨a', ha', hav', bank', hb', hok'⟩ := hinv.holds_of_assigned hq hcls'
    obtain rfl := Option.some.inj (hbank.symm.trans hb)
    obtain rfl := Option.some.inj (hbank'.symm.trans hb')
    obtain rfl := poolNumber_inj (hok.phys p (hav ▸ hp)).1 (hok'.phys q (hav' ▸ hq)).1
      (hnum.trans hnum'.symm)
    have hdisj := (hinv.pairs a ha a' ha' fun h => hne (hav ▸ hav' ▸ congrArg _ h)).phys p cls cls'
      (hav ▸ hp) (hav' ▸ hq) (hav ▸ hcls) (hav' ▸ hcls') (hbank.trans hbank'.symm)
    obtain ⟨i, hi, hiv, hi₁, hi₂⟩ := exists_interval hfacts hv
    obtain ⟨j, hj, hjv, hj₁, hj₂⟩ := exists_interval hfacts hw
    rw [List.append_nil] at hinv ha ha'
    obtain rfl := hinv.vregs i (List.mem_reverse.mpr hi) a ha (hiv.trans hav.symm)
    obtain rfl := hinv.vregs j (List.mem_reverse.mpr hj) a' ha' (hjv.trans hav'.symm)
    omega
  · intro v bank number hcls hreg
    obtain ⟨cls, p, hcls', hp, hbank, hnum⟩ := assignedNumber_eq_some hreg
    obtain rfl := Option.some.inj (hcls.symm.trans hcls')
    obtain ⟨a, ha, rfl, bank', hb, hok⟩ := hinv.holds_of_assigned hp hcls
    obtain rfl := Option.some.inj (hbank.symm.trans hb)
    obtain ⟨hlt, hallowed, -⟩ := hok.phys p hp
    have hcross := Bool.eq_false_iff.mpr fun hc => hok.q_crossing rfl hc p hp
    have := (poolNumber_callerSaved hlt (hallowed.2 hcross rfl)).2
    rwa [hnum] at this
  · intro v slot cls hslot hcls
    obtain ⟨a, ha, rfl, bank, hb, hok⟩ := hinv.holds_of_assigned hslot hcls
    exact hok.spill slot hslot
  · intro v w slot slot' cls cls' hne hslot hslot' hcls hcls'
    obtain ⟨a, ha, rfl, -⟩ := hinv.holds_of_assigned hslot hcls
    obtain ⟨a', ha', rfl, -⟩ := hinv.holds_of_assigned hslot' hcls'
    exact (hinv.pairs a ha a' ha' fun h => hne (congrArg _ h)).spill slot slot' cls cls'
      hslot hslot' hcls hcls'
  · intro v bank number hreg hsaved
    obtain ⟨cls, p, hcls, hp, hbank, hnum⟩ := assignedNumber_eq_some hreg
    obtain ⟨a, ha, rfl, bank', hb, hok⟩ := hinv.holds_of_assigned hp hcls
    obtain rfl := Option.some.inj (hbank.symm.trans hb)
    obtain ⟨hlt, -, hbit⟩ := hok.phys p hp
    cases hidx : isCalleeSavedIndex bank p with
    | false =>
      rw [← show poolNumber bank p = number from hnum] at hsaved
      exact absurd hsaved (poolNumber_callerSaved hlt hidx).2
    | true =>
      have hbits := (poolNumber_calleeSaved hlt hidx).2.2
      rw [show poolNumber bank p = number from hnum] at hbits
      exact hbits ▸ hbit hidx
  · intro hseen v b k bank number hacross hreg
    obtain ⟨cls, p, hcls, hp, hbank, hnum⟩ := assignedNumber_eq_some hreg
    obtain ⟨a, ha, rfl, bank', hb, hok⟩ := hinv.holds_of_assigned hp hcls
    obtain rfl := Option.some.inj (hbank.symm.trans hb)
    obtain ⟨hlt, hallowed, -⟩ := hok.phys p hp
    have hcross := (mem_valuesLiveAcrossCalls_iff hfacts).mpr (hseen a.vreg b k hacross)
    have := (poolNumber_calleeSaved hlt (hallowed.1 (List.contains_iff_mem.mpr hcross))).2.1
    rwa [show poolNumber bank p = number from hnum] at this

end Soundness

/-! ## A call at the head of a block -/

/-- The entry jumps to an edge block laid out last, which defines `v0` and
    jumps back to the middle block: a call, then a use of `v0`. -/
def callFirstBody : MachineBody :=
  [⟨[.b 2], by decide, by decide⟩,
    ⟨[.call "f", .mov (.gpr 0) (.virtual 0 .gpr64), .ret], by decide, by decide⟩,
    ⟨[.movImm (.virtual 0 .gpr64) 7, .b 1], by decide, by decide⟩]

/-- `v0` is live across the call, yet the scan gives it `x9`. -/
theorem allocateBody_callFirstBody :
    ∃ r, allocateBody callFirstBody none = some r ∧ ¬ CallSafe callFirstBody r := by
  obtain ⟨r, hr, -, -⟩ := allocateBody_sound callFirstBody none
  refine ⟨r, hr, fun hsafe => ?_⟩
  have heval : (allocateBody callFirstBody none).map (fun r => r.assignments 0) =
      some (some (.phys 0)) := by decide
  rw [hr] at heval
  have hphys : r.assignments 0 = some (.phys 0) := Option.some.inj heval
  have hclass : operandClass callFirstBody 0 = some .gpr64 := by decide
  have huse : 0 ∈ virtualUses (.mov (.gpr 0) (.virtual 0 .gpr64)) := by decide
  have hacross : LiveAcrossCall callFirstBody 0 1 0 :=
    ⟨.call "f", rfl, rfl, by decide, .use rfl huse⟩
  refine hsafe 0 1 0 .gpr 9 hacross ?_ (by decide)
  simp only [assignedNumber, hclass, hphys]
  rfl

end Crabbit.Aarch64
