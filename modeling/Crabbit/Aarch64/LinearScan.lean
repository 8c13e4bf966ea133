/-
  Crabbit.Aarch64.LinearScan

  Invariant of the linear scan.  An iteration is a composition of four moves
  on the state (expire, release a victim, take a register, spill); each move
  keeps `ScanInv`, and the run lemma follows by induction on the intervals.
-/

import Crabbit.Aarch64.RegisterAllocate
import Mathlib.Data.Nat.Bitwise

namespace Crabbit.Aarch64

/-! ## Victims and free positions -/

theorem foldl_select_mem {α : Type} (select : α → α → Bool) (xs : List α) :
    ∀ x : α, xs.foldl (fun best y => if select best y then best else y) x ∈ x :: xs := by
  induction xs with
  | nil => exact fun x => List.mem_cons_self
  | cons y ys ih =>
    intro x
    rw [List.foldl_cons]
    rcases List.mem_cons.mp (ih (if select x y = true then x else y)) with h | h
    · rw [h]
      split
      · exact List.mem_cons_self
      · exact List.mem_cons_of_mem _ List.mem_cons_self
    · exact List.mem_cons_of_mem _ (List.mem_cons_of_mem _ h)

theorem maxBy_mem {α : Type} {cmp : α → α → Ordering} {xs : List α} {x : α}
    (h : maxBy cmp xs = some x) : x ∈ xs := by
  cases xs with
  | nil => cases h
  | cons y ys =>
    rw [← Option.some.inj h]
    have := foldl_select_mem (fun best y => decide (cmp best y = .gt)) ys y
    simpa only [decide_eq_true_eq] using this

theorem minBy_mem {α : Type} {cmp : α → α → Ordering} {xs : List α} {x : α}
    (h : minBy cmp xs = some x) : x ∈ xs := by
  cases xs with
  | nil => cases h
  | cons y ys =>
    rw [← Option.some.inj h]
    have := foldl_select_mem (fun best y => !decide (cmp best y = .gt)) ys y
    simp only [Bool.not_eq_true', decide_eq_false_iff_not, ite_not] at this
    exact this

/-- An indexed element that passes a filter is at its index of the list. -/
theorem mem_zipIdx_filter {α : Type} {xs : List α} {p : α → Bool} {x : α} {i : Nat}
    (h : (x, i) ∈ xs.zipIdx.filter fun q => p q.1) :
    p x = true ∧ ∃ hi : i < xs.length, xs[i] = x := by
  obtain ⟨hmem, hp⟩ := List.mem_filter.mp h
  have hget := List.mk_mem_zipIdx_iff_getElem?.mp hmem
  exact ⟨hp, List.getElem?_eq_some_iff.mp hget⟩

/-- What either policy returns: an eligible active interval, and the others. -/
theorem spillVictim_spec {weights : Option SpillWeights} {current : LiveInterval}
    {active rest : List ActiveInterval} {eligible : ActiveInterval → Bool}
    {victim : ActiveInterval} (h : spillVictim weights current active eligible =
      some (victim, rest)) :
    eligible victim = true ∧ active.Perm (victim :: rest) := by
  have hmem : ∀ index : Nat, (victim, index) ∈ active.zipIdx.filter (fun p => eligible p.1) →
      rest = active.eraseIdx index → eligible victim = true ∧ active.Perm (victim :: rest) := by
    rintro index hmem rfl
    obtain ⟨hp, hi, rfl⟩ := mem_zipIdx_filter hmem
    exact ⟨hp, (List.getElem_cons_eraseIdx_perm hi).symm⟩
  cases weights with
  | none =>
    simp only [spillVictim, spillFurthestEnd, Option.bind_eq_bind, Option.bind_eq_some_iff] at h
    obtain ⟨⟨victim', index⟩, hmax, h⟩ := h
    split at h
    · obtain ⟨rfl, rfl⟩ := Prod.mk.inj (Option.some.inj h)
      exact hmem index (maxBy_mem hmax) rfl
    · cases h
  | some weights =>
    simp only [spillVictim, spillCheapestWeight, Option.bind_eq_bind,
      Option.bind_eq_some_iff] at h
    obtain ⟨⟨victim', index⟩, hmin, h⟩ := h
    split at h
    · obtain ⟨rfl, rfl⟩ := Prod.mk.inj (Option.some.inj h)
      exact hmem index (minBy_mem hmin) rfl
    · cases h

/-- Which registers an interval may hold. -/
def Allowed (bank : Bank) (crossing isQ : Bool) (physIndex : Nat) : Prop :=
  (crossing = true → isCalleeSavedIndex bank physIndex = true) ∧
    (crossing = false → isQ = true → isCalleeSavedIndex bank physIndex = false)

theorem isEligible_allowed {bank : Bank} {crossing isQ : Bool} {a : ActiveInterval}
    (h : isEligible bank crossing isQ a = true) : Allowed bank crossing isQ a.physIndex := by
  unfold isEligible at h
  cases crossing <;> cases isQ <;> simp_all [Allowed]

/-- What `linear_scan` takes from the free list is there and is allowed. -/
theorem freePosition_spec {bank : Bank} {crossing isQ : Bool} {free : List Nat} {position : Nat}
    (h : freePosition bank crossing isQ free = some position) :
    Allowed bank crossing isQ (free.getD position 0) ∧
      free.Perm (free.getD position 0 :: free.eraseIdx position) := by
  have hget : ∀ hlt : position < free.length,
      free.getD position 0 = free[position] ∧
        free.Perm (free.getD position 0 :: free.eraseIdx position) := by
    intro hlt
    have heq : free.getD position 0 = free[position] := by
      rw [List.getD_eq_getElem?_getD, List.getElem?_eq_getElem hlt, Option.getD_some]
    exact ⟨heq, heq ▸ (List.getElem_cons_eraseIdx_perm hlt).symm⟩
  unfold freePosition at h
  cases crossing with
  | true =>
    obtain ⟨hlt, hp, -⟩ := List.findIdx?_eq_some_iff_getElem.mp h
    obtain ⟨heq, hperm⟩ := hget hlt
    exact ⟨⟨fun _ => heq ▸ hp, fun h => by cases h⟩, hperm⟩
  | false =>
    cases isQ with
    | true =>
      simp only [Bool.false_eq_true, if_false, if_true] at h
      obtain ⟨hlt, hp, -⟩ := List.findIdx?_eq_some_iff_getElem.mp h
      obtain ⟨heq, hperm⟩ := hget hlt
      refine ⟨⟨fun h => (by cases h), fun _ _ => ?_⟩, hperm⟩
      rw [heq]
      simpa using hp
    | false =>
      simp only [Bool.false_eq_true, if_false] at h
      split at h
      · cases h
      next hne =>
        obtain rfl := Option.some.inj h
        have hlt : 0 < free.length := by
          cases free with
          | nil => exact absurd rfl hne
          | cons _ _ => exact Nat.succ_pos _
        exact ⟨⟨fun h => (by cases h), fun _ h => by cases h⟩, (hget hlt).2⟩

/-! ## Slots and mask bits -/

/-- 8-byte slots a value of a class takes. -/
def slotCount (cls : RegisterClass) : Nat := if cls = .simd128 then 2 else 1

/-- The slots taken lie past all earlier ones, and a vector's start is even. -/
theorem takeSpillSlots_spec (spillSlots : Nat) (cls : RegisterClass) :
    spillSlots ≤ (takeSpillSlots spillSlots cls).1 ∧
      (takeSpillSlots spillSlots cls).2 = (takeSpillSlots spillSlots cls).1 + slotCount cls ∧
      (cls = .simd128 → (takeSpillSlots spillSlots cls).1 % 2 = 0) := by
  unfold takeSpillSlots slotCount
  split
  · have hand := Nat.and_two_pow_sub_one_eq_mod (spillSlots + 1) 1
    simp only [Nat.pow_one, Nat.reduceSub] at hand
    rw [hand]
    dsimp only
    omega
  · exact ⟨Nat.le_refl _, rfl, fun h => absurd h ‹_›⟩

theorem testBit_savedRegMaskBit (bank : Bank) (physIndex mask : Nat) :
    (mask ||| savedRegMaskBit bank physIndex).testBit (savedRegBit bank physIndex) = true := by
  rw [Nat.testBit_or, savedRegMaskBit, Nat.one_shiftLeft, Nat.testBit_two_pow_self, Bool.or_true]

/-! ## The invariant -/

section Scan

variable {classes : Nat → Option RegisterClass} {callCrossing : List Nat}

/-- What the assignment of one scanned interval satisfies. -/
structure AssignmentOk (classes : Nat → Option RegisterClass) (callCrossing : List Nat)
    (s : ScanState) (interval : LiveInterval) (cls : RegisterClass) (bank : Bank) : Prop where
  assigned : ∃ alloc, s.assignments interval.vreg = some alloc
  phys : ∀ p, s.assignments interval.vreg = some (.phys p) →
    p < poolSize bank ∧
      Allowed bank (callCrossing.contains interval.vreg) (decide (cls = .simd128)) p ∧
      (isCalleeSavedIndex bank p = true → s.savedRegsMask.testBit (savedRegBit bank p) = true)
  q_crossing : cls = .simd128 → callCrossing.contains interval.vreg = true →
    ∀ p, s.assignments interval.vreg ≠ some (.phys p)
  spill : ∀ slot, s.assignments interval.vreg = some (.spill slot) →
    slot + slotCount cls ≤ s.spillSlots ∧ (cls = .simd128 → slot % 2 = 0)

/-- What the assignments of two scanned intervals satisfy together. -/
structure PairOk (classes : Nat → Option RegisterClass) (s : ScanState)
    (a b : LiveInterval) : Prop where
  phys : ∀ p cls cls', s.assignments a.vreg = some (.phys p) →
    s.assignments b.vreg = some (.phys p) → classes a.vreg = some cls →
    classes b.vreg = some cls' → bankOf cls = bankOf cls' →
    a.stop < b.start ∨ b.stop < a.start
  spill : ∀ slot slot' cls cls', s.assignments a.vreg = some (.spill slot) →
    s.assignments b.vreg = some (.spill slot') → classes a.vreg = some cls →
    classes b.vreg = some cls' →
    slot + slotCount cls ≤ slot' ∨ slot' + slotCount cls' ≤ slot

/-- The invariant of the scan: `done` are the intervals scanned so far, none
    of which starts after `start`. -/
structure ScanInv (classes : Nat → Option RegisterClass) (callCrossing : List Nat)
    (done : List LiveInterval) (start : Nat) (s : ScanState) : Prop where
  pool_nodup : ∀ bank, ((s.active bank).map (·.physIndex) ++ s.free bank).Nodup
  pool_lt : ∀ bank, ∀ p ∈ (s.active bank).map (·.physIndex) ++ s.free bank, p < poolSize bank
  active_done : ∀ bank, ∀ a ∈ s.active bank, a.interval ∈ done ∧
    s.assignments a.interval.vreg = some (.phys a.physIndex) ∧
    ∃ cls, classes a.interval.vreg = some cls ∧ bankOf cls = some bank
  holds : ∀ a ∈ done, ∃ cls bank, classes a.vreg = some cls ∧ bankOf cls = some bank ∧
    AssignmentOk classes callCrossing s a cls bank ∧
    ∀ p, s.assignments a.vreg = some (.phys p) → ⟨a, p⟩ ∈ s.active bank ∨ a.stop < start
  pairs : ∀ a ∈ done, ∀ b ∈ done, a ≠ b → PairOk classes s a b
  vregs : ∀ a ∈ done, ∀ b ∈ done, a.vreg = b.vreg → a = b
  assigned_done : ∀ v alloc, s.assignments v = some alloc → ∃ a ∈ done, a.vreg = v

theorem scanInv_initial (classes : Nat → Option RegisterClass) (callCrossing : List Nat) :
    ScanInv classes callCrossing [] 0 .initial where
  pool_nodup bank := List.nodup_range
  pool_lt bank p hp := List.mem_range.mp hp
  active_done bank a ha := by cases ha
  holds a ha := by cases ha
  pairs a ha := by cases ha
  vregs a ha := by cases ha
  assigned_done v alloc h := by cases h

/-! ### Expiry -/

/-- Moving expired intervals to the free list; the lists are known up to
    order only. -/
theorem ScanInv.expire {done : List LiveInterval} {start start' : Nat} {s : ScanState}
    (h : ScanInv classes callCrossing done start s) (hstart : start ≤ start') (bank : Bank)
    {free : List Nat}
    (hfree : free.Perm (expireOldIntervals start' (s.active bank) (s.free bank)).2) :
    ScanInv classes callCrossing done start'
      { s with
        active := Function.update s.active bank
          (expireOldIntervals start' (s.active bank) (s.free bank)).1
        free := Function.update s.free bank free } := by
  have hperm : ((expireOldIntervals start' (s.active bank) (s.free bank)).1.map (·.physIndex) ++
      free).Perm ((s.active bank).map (·.physIndex) ++ s.free bank) := by
    refine (List.Perm.append_left _ hfree).trans ?_
    simp only [expireOldIntervals]
    refine (List.Perm.append_left _ List.perm_append_comm).trans ?_
    rw [← List.append_assoc, ← List.map_append]
    refine List.Perm.append_right _ (List.Perm.map _ ?_)
    have := List.filter_append_perm (fun a => decide (¬ a.interval.stop < start'))
      (s.active bank)
    simpa only [decide_not, Bool.not_not] using this
  have hsub : ∀ bank', ∀ a ∈ Function.update s.active bank
      (expireOldIntervals start' (s.active bank) (s.free bank)).1 bank', a ∈ s.active bank' := by
    intro bank' a ha
    by_cases hb : bank' = bank
    · subst hb
      rw [Function.update_self] at ha
      exact (List.mem_filter.mp ha).1
    · rwa [Function.update_of_ne hb] at ha
  refine ⟨?_, ?_, fun bank' a ha => h.active_done bank' a (hsub bank' a ha), ?_,
    fun a ha b hb hne => ⟨(h.pairs a ha b hb hne).phys, (h.pairs a ha b hb hne).spill⟩, h.vregs,
    h.assigned_done⟩
  · intro bank'
    by_cases hb : bank' = bank
    · subst hb
      simp only [Function.update_self]
      exact hperm.nodup_iff.mpr (h.pool_nodup bank')
    · simp only [Function.update_of_ne hb]
      exact h.pool_nodup bank'
  · intro bank' p hp
    by_cases hb : bank' = bank
    · subst hb
      simp only [Function.update_self] at hp
      exact h.pool_lt bank' p (hperm.mem_iff.mp hp)
    · simp only [Function.update_of_ne hb] at hp
      exact h.pool_lt bank' p hp
  · intro a ha
    obtain ⟨cls, bank', hcls, hbank, hok, hactive⟩ := h.holds a ha
    refine ⟨cls, bank', hcls, hbank, ⟨hok.assigned, hok.phys, hok.q_crossing, hok.spill⟩,
      fun p hp => ?_⟩
    rcases hactive p hp with hmem | hlt
    · by_cases hb : bank' = bank
      · subst hb
        by_cases hend : a.stop < start'
        · exact .inr hend
        · refine .inl ?_
          simp only [Function.update_self]
          exact List.mem_filter.mpr ⟨hmem, decide_eq_true hend⟩
      · refine .inl ?_
        simp only [Function.update_of_ne hb]
        exact hmem
    · exact .inr (by omega)

/-! ### Spilling -/

theorem assigned_update_done {done : List LiveInterval} {assignments : Nat → Option Allocation}
    (h : ∀ v alloc, assignments v = some alloc → ∃ a ∈ done, a.vreg = v) {a : LiveInterval}
    (ha : a ∈ done) (alloc : Option Allocation) :
    ∀ v alloc', Function.update assignments a.vreg alloc v = some alloc' →
      ∃ b ∈ done, b.vreg = v := by
  intro v alloc' hv
  by_cases hva : v = a.vreg
  · exact ⟨a, ha, hva.symm⟩
  · rw [Function.update_of_ne hva] at hv
    exact h v alloc' hv

/-- The slots of every other interval stay below the new ones. -/
theorem ScanInv.spill_pair {done : List LiveInterval} {start : Nat} {s : ScanState}
    (h : ScanInv classes callCrossing done start s) {a b : LiveInterval} (hb : b ∈ done)
    {cls : RegisterClass} (hne : b.vreg ≠ a.vreg) :
    PairOk classes (s.spill a.vreg cls) a b := by
  obtain ⟨cls', bank', hcls', -, hok, -⟩ := h.holds b hb
  have ha' : (s.spill a.vreg cls).assignments a.vreg =
      some (.spill (takeSpillSlots s.spillSlots cls).1) := Function.update_self ..
  have hb' : (s.spill a.vreg cls).assignments b.vreg = s.assignments b.vreg :=
    Function.update_of_ne hne ..
  constructor
  · intro p _ _ hp
    rw [ha'] at hp
    cases hp
  · intro slot slot' clsA clsB hslot hslot' hclsA hclsB
    obtain rfl := Option.some.inj (hcls'.symm.trans hclsB)
    rw [ha'] at hslot
    rw [hb'] at hslot'
    obtain rfl := Allocation.spill.inj (Option.some.inj hslot)
    have := (takeSpillSlots_spec s.spillSlots cls).1
    have := (hok.spill slot' hslot').1
    exact .inr (by omega)

theorem PairOk.symm {s : ScanState} {a b : LiveInterval} (h : PairOk classes s a b) :
    PairOk classes s b a := by
  constructor
  · intro p cls cls' ha hb hcls hcls' hbank
    exact (h.phys p cls' cls hb ha hcls' hcls hbank.symm).symm
  · intro slot slot' cls cls' ha hb hcls hcls'
    exact (h.spill slot' slot cls' cls hb ha hcls' hcls).symm

/-- The assignment of another interval survives a spill. -/
theorem AssignmentOk.spill_other {s : ScanState} {a : LiveInterval} {cls : RegisterClass}
    {bank : Bank} (h : AssignmentOk classes callCrossing s a cls bank) {vreg : Nat}
    (hne : a.vreg ≠ vreg) (cls' : RegisterClass) :
    AssignmentOk classes callCrossing (s.spill vreg cls') a cls bank := by
  have heq : (s.spill vreg cls').assignments a.vreg = s.assignments a.vreg :=
    Function.update_of_ne hne ..
  obtain ⟨hle, hcount, -⟩ := takeSpillSlots_spec s.spillSlots cls'
  refine ⟨by rw [heq]; exact h.assigned, fun p hp => h.phys p (heq ▸ hp),
    fun hq hc p hp => h.q_crossing hq hc p (heq ▸ hp), fun slot hslot => ?_⟩
  obtain ⟨hlt, heven⟩ := h.spill slot (heq ▸ hslot)
  refine ⟨?_, heven⟩
  show slot + slotCount cls ≤ (takeSpillSlots s.spillSlots cls').2
  omega

/-- The assignment of the spilled interval itself. -/
theorem assignmentOk_spill_self (classes : Nat → Option RegisterClass)
    (callCrossing : List Nat) (s : ScanState) (a : LiveInterval) (cls : RegisterClass)
    (bank : Bank) : AssignmentOk classes callCrossing (s.spill a.vreg cls) a cls bank := by
  have heq : (s.spill a.vreg cls).assignments a.vreg =
      some (.spill (takeSpillSlots s.spillSlots cls).1) := Function.update_self ..
  obtain ⟨-, hcount, heven⟩ := takeSpillSlots_spec s.spillSlots cls
  refine ⟨⟨_, heq⟩, fun p hp => ?_, fun _ _ p hp => ?_, fun slot hslot => ?_⟩
  · rw [heq] at hp
    cases hp
  · rw [heq] at hp
    cases hp
  · rw [heq] at hslot
    obtain rfl := Allocation.spill.inj (Option.some.inj hslot)
    exact ⟨Nat.le_of_eq hcount.symm, heven⟩

theorem PairOk.spill_other {s : ScanState} {a b : LiveInterval} (h : PairOk classes s a b)
    {vreg : Nat} (ha : a.vreg ≠ vreg) (hb : b.vreg ≠ vreg) (cls : RegisterClass) :
    PairOk classes (s.spill vreg cls) a b := by
  have ha' : (s.spill vreg cls).assignments a.vreg = s.assignments a.vreg :=
    Function.update_of_ne ha ..
  have hb' : (s.spill vreg cls).assignments b.vreg = s.assignments b.vreg :=
    Function.update_of_ne hb ..
  exact ⟨fun p c c' h1 h2 => h.phys p c c' (ha' ▸ h1) (hb' ▸ h2),
    fun x y c c' h1 h2 => h.spill x y c c' (ha' ▸ h1) (hb' ▸ h2)⟩

/-- Evicting an active interval: it is spilled and its register is free. -/
theorem ScanInv.release {done : List LiveInterval} {start : Nat} {s : ScanState}
    (h : ScanInv classes callCrossing done start s) {bank : Bank} {victim : ActiveInterval}
    {rest : List ActiveInterval} (hperm : (s.active bank).Perm (victim :: rest))
    {cls : RegisterClass} (hcls : classes victim.interval.vreg = some cls) :
    ScanInv classes callCrossing done start
      { s.spill victim.interval.vreg cls with
        active := Function.update s.active bank rest
        free := Function.update s.free bank (victim.physIndex :: s.free bank) } := by
  have hvictim : victim ∈ s.active bank := hperm.mem_iff.mpr List.mem_cons_self
  obtain ⟨hdone, hassign, -⟩ := h.active_done bank victim hvictim
  have hlists : (rest.map (·.physIndex) ++ victim.physIndex :: s.free bank).Perm
      ((s.active bank).map (·.physIndex) ++ s.free bank) := by
    refine List.perm_middle.trans ?_
    rw [← List.cons_append, ← List.map_cons]
    exact List.Perm.append_right _ (hperm.symm.map _)
  -- an active interval other than the victim is another interval
  have hother : ∀ bank', ∀ a ∈ Function.update s.active bank rest bank',
      a ∈ s.active bank' ∧ a.interval.vreg ≠ victim.interval.vreg := by
    intro bank' a ha
    by_cases hb : bank' = bank
    · subst hb
      rw [Function.update_self] at ha
      have hmem : a ∈ s.active bank' := hperm.mem_iff.mpr (List.mem_cons_of_mem _ ha)
      refine ⟨hmem, fun hv => ?_⟩
      obtain ⟨-, ha', -⟩ := h.active_done bank' a hmem
      rw [hv, hassign] at ha'
      have hp := Allocation.phys.inj (Option.some.inj ha')
      have hnodup : ((victim :: rest).map (·.physIndex)).Nodup :=
        (hperm.map _).nodup_iff.mp (List.nodup_append.mp (h.pool_nodup bank')).1
      rw [List.map_cons, List.nodup_cons] at hnodup
      exact hnodup.1 (List.mem_map.mpr ⟨a, ha, hp.symm⟩)
    · rw [Function.update_of_ne hb] at ha
      refine ⟨ha, fun hv => hb ?_⟩
      obtain ⟨-, -, cls₁, hcls₁, hbank₁⟩ := h.active_done bank' a ha
      obtain ⟨-, -, cls₂, hcls₂, hbank₂⟩ := h.active_done bank victim hvictim
      rw [hv, hcls₂] at hcls₁
      obtain rfl := Option.some.inj hcls₁
      exact Option.some.inj (hbank₁.symm.trans hbank₂)
  refine ⟨?_, ?_, ?_, ?_, ?_, h.vregs, assigned_update_done h.assigned_done hdone _⟩
  · intro bank'
    by_cases hb : bank' = bank
    · subst hb
      simp only [Function.update_self]
      exact hlists.nodup_iff.mpr (h.pool_nodup bank')
    · simp only [Function.update_of_ne hb]
      exact h.pool_nodup bank'
  · intro bank' p hp
    by_cases hb : bank' = bank
    · subst hb
      simp only [Function.update_self] at hp
      exact h.pool_lt bank' p (hlists.mem_iff.mp hp)
    · simp only [Function.update_of_ne hb] at hp
      exact h.pool_lt bank' p hp
  · intro bank' a ha
    obtain ⟨hmem, hne⟩ := hother bank' a ha
    obtain ⟨hin, ha', hc⟩ := h.active_done bank' a hmem
    exact ⟨hin, (Function.update_of_ne hne ..).trans ha', hc⟩
  · intro a ha
    obtain ⟨cls', bank', hcls', hbank', hok, hactive⟩ := h.holds a ha
    refine ⟨cls', bank', hcls', hbank', ?_⟩
    by_cases hv : a.vreg = victim.interval.vreg
    · obtain rfl := h.vregs a ha _ hdone hv
      obtain rfl := Option.some.inj (hcls.symm.trans hcls')
      obtain ⟨h1, h2, h3, h4⟩ := assignmentOk_spill_self classes callCrossing s victim.interval
        cls bank'
      exact ⟨⟨h1, h2, h3, h4⟩, fun p hp => absurd ((h2 p hp).1) (by
        rw [show (s.spill victim.interval.vreg cls).assignments victim.interval.vreg = _ from
          Function.update_self ..] at hp
        cases hp)⟩
    · obtain ⟨h1, h2, h3, h4⟩ := hok.spill_other hv cls
      refine ⟨⟨h1, h2, h3, h4⟩, fun p hp => ?_⟩
      rcases hactive p ((Function.update_of_ne hv ..).symm.trans hp) with hmem | hlt
      · refine .inl ?_
        by_cases hb : bank' = bank
        · subst hb
          simp only [Function.update_self]
          rcases List.mem_cons.mp (hperm.mem_iff.mp hmem) with heq | hmem
          · exact absurd (by rw [← heq]) hv
          · exact hmem
        · simp only [Function.update_of_ne hb]
          exact hmem
      · exact .inr hlt
  · intro a ha b hb hne
    by_cases hva : a.vreg = victim.interval.vreg
    · obtain rfl := h.vregs a ha _ hdone hva
      have hnb : b.vreg ≠ victim.interval.vreg := fun hvb => hne (h.vregs b hb _ hdone hvb).symm
      obtain ⟨h1, h2⟩ := h.spill_pair hb hnb
      exact ⟨h1, h2⟩
    · by_cases hvb : b.vreg = victim.interval.vreg
      · obtain rfl := h.vregs b hb _ hdone hvb
        obtain ⟨h1, h2⟩ := (h.spill_pair ha hva).symm
        exact ⟨h1, h2⟩
      · obtain ⟨h1, h2⟩ := (h.pairs a ha b hb hne).spill_other hva hvb cls
        exact ⟨h1, h2⟩

/-- Spilling the current interval. -/
theorem ScanInv.spill_self {done : List LiveInterval} {start : Nat} {s : ScanState}
    (h : ScanInv classes callCrossing done start s) {current : LiveInterval}
    (hfresh : ∀ a ∈ done, a.vreg ≠ current.vreg) (hstart : start ≤ current.start)
    {cls : RegisterClass} {bank : Bank} (hcls : classes current.vreg = some cls)
    (hbank : bankOf cls = some bank) :
    ScanInv classes callCrossing (current :: done) current.start (s.spill current.vreg cls) := by
  have heq : ∀ a ∈ done, (s.spill current.vreg cls).assignments a.vreg = s.assignments a.vreg :=
    fun a ha => Function.update_of_ne (hfresh a ha) ..
  have hdone : ∀ v alloc, s.assignments v = some alloc → ∃ a ∈ current :: done, a.vreg = v :=
    fun v alloc hv => (h.assigned_done v alloc hv).imp fun _ ha =>
      ⟨List.mem_cons_of_mem _ ha.1, ha.2⟩
  refine ⟨h.pool_nodup, h.pool_lt, ?_, ?_, ?_, ?_,
    assigned_update_done hdone List.mem_cons_self _⟩
  · intro bank' a ha
    obtain ⟨hin, ha', hc⟩ := h.active_done bank' a ha
    exact ⟨List.mem_cons_of_mem _ hin, (heq _ hin).trans ha', hc⟩
  · intro a ha
    rcases List.mem_cons.mp ha with rfl | ha
    · refine ⟨cls, bank, hcls, hbank, assignmentOk_spill_self _ _ s a cls bank, fun p hp => ?_⟩
      rw [show (s.spill a.vreg cls).assignments a.vreg = _ from Function.update_self ..] at hp
      cases hp
    · obtain ⟨cls', bank', hcls', hbank', hok, hactive⟩ := h.holds a ha
      refine ⟨cls', bank', hcls', hbank', hok.spill_other (hfresh a ha) cls, fun p hp => ?_⟩
      rcases hactive p (heq a ha ▸ hp) with hmem | hlt
      · exact .inl hmem
      · exact .inr (by omega)
  · intro a ha b hb hne
    rcases List.mem_cons.mp ha with rfl | ha'
    · rcases List.mem_cons.mp hb with rfl | hb'
      · exact absurd rfl hne
      · exact h.spill_pair hb' (hfresh b hb')
    · rcases List.mem_cons.mp hb with rfl | hb'
      · exact (h.spill_pair ha' (hfresh a ha')).symm
      · exact (h.pairs a ha' b hb' hne).spill_other (hfresh a ha') (hfresh b hb') cls
  · intro a ha b hb hv
    rcases List.mem_cons.mp ha with rfl | ha'
    · rcases List.mem_cons.mp hb with rfl | hb'
      · rfl
      · exact absurd hv.symm (hfresh b hb')
    · rcases List.mem_cons.mp hb with rfl | hb'
      · exact absurd hv (hfresh a ha')
      · exact h.vregs a ha' b hb' hv

/-! ### Taking a register -/

/-- The current interval takes a free register it is allowed to hold. -/
theorem ScanInv.take {done : List LiveInterval} {start : Nat} {s : ScanState}
    (h : ScanInv classes callCrossing done start s) {current : LiveInterval}
    (hfresh : ∀ a ∈ done, a.vreg ≠ current.vreg) (hstart : start = current.start)
    {cls : RegisterClass} {bank : Bank} (hcls : classes current.vreg = some cls)
    (hbank : bankOf cls = some bank) {p : Nat} {free : List Nat}
    (hperm : (s.free bank).Perm (p :: free))
    (hallowed : Allowed bank (callCrossing.contains current.vreg) (decide (cls = .simd128)) p)
    (hq : ¬ (cls = .simd128 ∧ callCrossing.contains current.vreg = true)) :
    ScanInv classes callCrossing (current :: done) current.start
      (s.assign bank current p (s.active bank) free) := by
  set s' := s.assign bank current p (s.active bank) free with hs'
  have hactive : (s'.active bank).Perm (⟨current, p⟩ :: s.active bank) := by
    rw [hs']
    simp only [ScanState.assign, Function.update_self]
    exact (List.perm_insertionSort _ _).trans (List.perm_append_singleton _ _)
  have hactive_ne : ∀ bank', bank' ≠ bank → s'.active bank' = s.active bank' :=
    fun bank' hb => Function.update_of_ne hb ..
  have hfree : s'.free bank = free := Function.update_self ..
  have hfree_ne : ∀ bank', bank' ≠ bank → s'.free bank' = s.free bank' :=
    fun bank' hb => Function.update_of_ne hb ..
  have hself : s'.assignments current.vreg = some (.phys p) := Function.update_self ..
  have heq : ∀ a ∈ done, s'.assignments a.vreg = s.assignments a.vreg :=
    fun a ha => Function.update_of_ne (hfresh a ha) ..
  have hmask : ∀ bit, s.savedRegsMask.testBit bit = true → s'.savedRegsMask.testBit bit = true := by
    intro bit hbit
    rw [hs']
    simp only [ScanState.assign]
    split
    · rw [Nat.testBit_or, hbit, Bool.true_or]
    · exact hbit
  have hlists : ((s'.active bank).map (·.physIndex) ++ s'.free bank).Perm
      ((s.active bank).map (·.physIndex) ++ s.free bank) := by
    rw [hfree]
    refine (List.Perm.append_right _ (hactive.map _)).trans ?_
    rw [List.map_cons, List.cons_append]
    exact List.perm_middle.symm.trans (List.Perm.append_left _ hperm.symm)
  -- the register is held by no active interval
  have hheld : ∀ a ∈ s.active bank, a.physIndex ≠ p := by
    intro a ha hp
    obtain ⟨-, -, hdisj⟩ := List.nodup_append.mp (h.pool_nodup bank)
    exact hdisj a.physIndex (List.mem_map.mpr ⟨a, ha, rfl⟩) p
      (hperm.mem_iff.mpr List.mem_cons_self) hp
  -- so an earlier interval with it has ended
  have hended : ∀ a ∈ done, ∀ cls', s.assignments a.vreg = some (.phys p) →
      classes a.vreg = some cls' → bankOf cls' = some bank → a.stop < current.start := by
    intro a ha cls' hp hcls' hbank'
    obtain ⟨cls₁, bank₁, hcls₁, hbank₁, -, hor⟩ := h.holds a ha
    obtain rfl := Option.some.inj (hcls₁.symm.trans hcls')
    obtain rfl := Option.some.inj (hbank₁.symm.trans hbank')
    rcases hor p hp with hmem | hlt
    · exact absurd rfl (hheld _ hmem)
    · exact hstart ▸ hlt
  have hdone : ∀ v alloc, s.assignments v = some alloc → ∃ a ∈ current :: done, a.vreg = v :=
    fun v alloc hv => (h.assigned_done v alloc hv).imp fun _ ha =>
      ⟨List.mem_cons_of_mem _ ha.1, ha.2⟩
  refine ⟨?_, ?_, ?_, ?_, ?_, ?_, assigned_update_done hdone List.mem_cons_self _⟩
  · intro bank'
    by_cases hb : bank' = bank
    · subst hb
      exact hlists.nodup_iff.mpr (h.pool_nodup bank')
    · rw [hactive_ne _ hb, hfree_ne _ hb]
      exact h.pool_nodup bank'
  · intro bank' q hq
    by_cases hb : bank' = bank
    · subst hb
      exact h.pool_lt bank' q (hlists.mem_iff.mp hq)
    · rw [hactive_ne _ hb, hfree_ne _ hb] at hq
      exact h.pool_lt bank' q hq
  · intro bank' a ha
    have hcase : a ∈ s.active bank' ∨ bank' = bank ∧ a = ⟨current, p⟩ := by
      by_cases hb : bank' = bank
      · subst hb
        rcases List.mem_cons.mp (hactive.mem_iff.mp ha) with h | h
        · exact .inr ⟨rfl, h⟩
        · exact .inl h
      · rw [hactive_ne _ hb] at ha
        exact .inl ha
    rcases hcase with hmem | ⟨rfl, rfl⟩
    · obtain ⟨hin, ha', hc⟩ := h.active_done bank' a hmem
      exact ⟨List.mem_cons_of_mem _ hin, (heq _ hin).trans ha', hc⟩
    · exact ⟨List.mem_cons_self, hself, cls, hcls, hbank⟩
  · intro a ha
    rcases List.mem_cons.mp ha with rfl | ha'
    · refine ⟨cls, bank, hcls, hbank, ⟨⟨_, hself⟩, ?_, ?_, ?_⟩, ?_⟩
      · intro q hq'
        obtain rfl := Allocation.phys.inj (Option.some.inj (hself.symm.trans hq'))
        refine ⟨h.pool_lt bank p (List.mem_append_right _ (hperm.mem_iff.mpr List.mem_cons_self)),
          hallowed, fun hsaved => ?_⟩
        rw [hs']
        simp only [ScanState.assign, hsaved, if_true]
        exact testBit_savedRegMaskBit bank p _
      · exact fun h1 h2 => absurd ⟨h1, h2⟩ hq
      · intro slot hslot
        rw [hself] at hslot
        cases hslot
      · intro q hq'
        obtain rfl := Allocation.phys.inj (Option.some.inj (hself.symm.trans hq'))
        exact .inl (hactive.mem_iff.mpr List.mem_cons_self)
    · obtain ⟨cls', bank', hcls', hbank', hok, hor⟩ := h.holds a ha'
      refine ⟨cls', bank', hcls', hbank', ⟨heq a ha' ▸ hok.assigned, fun q hq' => ?_,
        fun h1 h2 q hq' => hok.q_crossing h1 h2 q (heq a ha' ▸ hq'),
        fun slot hslot => hok.spill slot (heq a ha' ▸ hslot)⟩, fun q hq' => ?_⟩
      · obtain ⟨hlt, hall, hbit⟩ := hok.phys q (heq a ha' ▸ hq')
        exact ⟨hlt, hall, fun hsaved => hmask _ (hbit hsaved)⟩
      · rcases hor q (heq a ha' ▸ hq') with hmem | hlt
        · refine .inl ?_
          by_cases hb : bank' = bank
          · subst hb
            exact hactive.mem_iff.mpr (List.mem_cons_of_mem _ hmem)
          · rw [hactive_ne _ hb]
            exact hmem
        · exact .inr (hstart ▸ hlt)
  · have hnew : ∀ b ∈ done, PairOk classes s' current b := by
      intro b hb
      constructor
      · intro q clsA clsB hqa hqb hclsA hclsB hbanks
        obtain rfl := Allocation.phys.inj (Option.some.inj (hself.symm.trans hqa))
        obtain rfl := Option.some.inj (hcls.symm.trans hclsA)
        exact .inr (hended b hb clsB (heq b hb ▸ hqb) hclsB (hbanks ▸ hbank))
      · intro slot slot' clsA clsB hslot
        rw [hself] at hslot
        cases hslot
    intro a ha b hb hne
    rcases List.mem_cons.mp ha with rfl | ha'
    · rcases List.mem_cons.mp hb with rfl | hb'
      · exact absurd rfl hne
      · exact hnew b hb'
    · rcases List.mem_cons.mp hb with rfl | hb'
      · exact (hnew a ha').symm
      · have hpair := h.pairs a ha' b hb' hne
        exact ⟨fun q c c' h1 h2 => hpair.phys q c c' (heq a ha' ▸ h1) (heq b hb' ▸ h2),
          fun x y c c' h1 h2 => hpair.spill x y c c' (heq a ha' ▸ h1) (heq b hb' ▸ h2)⟩
  · intro a ha b hb hv
    rcases List.mem_cons.mp ha with rfl | ha'
    · rcases List.mem_cons.mp hb with rfl | hb'
      · rfl
      · exact absurd hv.symm (hfresh b hb')
    · rcases List.mem_cons.mp hb with rfl | hb'
      · exact absurd hv (hfresh a ha')
      · exact h.vregs a ha' b hb' hv

/-! ### One iteration -/

theorem ScanInv.scanInterval {done : List LiveInterval} {start : Nat} {s : ScanState}
    (h : ScanInv classes callCrossing done start s) {current : LiveInterval}
    (hfresh : ∀ a ∈ done, a.vreg ≠ current.vreg) (hstart : start ≤ current.start)
    {cls : RegisterClass} {bank : Bank} (hcls : classes current.vreg = some cls)
    (hbank : bankOf cls = some bank) (weights : Option SpillWeights) :
    ∃ s', scanInterval classes callCrossing weights s current = some s' ∧
      ScanInv classes callCrossing (current :: done) current.start s' := by
  simp only [Aarch64.scanInterval, hcls, hbank, Option.bind_eq_bind, Option.bind_some]
  by_cases hforced : (decide (cls = .simd128) && callCrossing.contains current.vreg) = true
  · rw [if_pos hforced]
    exact ⟨_, rfl, h.spill_self hfresh hstart hcls hbank⟩
  · rw [if_neg hforced]
    have hq : ¬ (cls = .simd128 ∧ callCrossing.contains current.vreg = true) := by
      rintro ⟨rfl, hc⟩
      exact hforced (by rw [hc]; rfl)
    set active := (expireOldIntervals current.start (s.active bank) (s.free bank)).1
    set freed := (expireOldIntervals current.start (s.active bank) (s.free bank)).2
    have hsort : (freed.insertionSort (· ≤ ·)).Perm freed := List.perm_insertionSort _ _
    have hexp := h.expire hstart bank hsort
    cases hpos : freePosition bank (callCrossing.contains current.vreg)
        (decide (cls = .simd128)) (freed.insertionSort (· ≤ ·)) with
    | some position =>
      obtain ⟨hallowed, hperm⟩ := freePosition_spec hpos
      refine ⟨_, rfl, ?_⟩
      have htake := hexp.take hfresh rfl hcls hbank
        (by simp only [Function.update_self]; exact hperm) hallowed hq
      simpa only [ScanState.assign, Function.update_self, Function.update_idem] using htake
    | none =>
      cases hvic : spillVictim weights current active (isEligible bank
          (callCrossing.contains current.vreg) (decide (cls = .simd128))) with
      | some victim =>
        obtain ⟨victim, rest⟩ := victim
        obtain ⟨helig, hperm⟩ := spillVictim_spec hvic
        have hmem : victim ∈ active := hperm.mem_iff.mpr List.mem_cons_self
        obtain ⟨-, -, vcls, hvcls, -⟩ := hexp.active_done bank victim
          (by simp only [Function.update_self]; exact hmem)
        simp only [hvcls, Option.bind_some]
        refine ⟨_, rfl, ?_⟩
        have hperm' : (Function.update s.active bank active bank).Perm (victim :: rest) := by
          rw [Function.update_self]
          exact hperm
        have hrel := hexp.release hperm' hvcls
        have htake := hrel.take hfresh rfl hcls hbank
          (by simp only [Function.update_self]; exact List.Perm.refl _)
          (isEligible_allowed helig) hq
        simpa only [ScanState.assign, ScanState.spill, Function.update_self,
          Function.update_idem] using htake
      | none =>
        refine ⟨_, rfl, ?_⟩
        exact hexp.spill_self hfresh (Nat.le_refl _) hcls hbank

/-! ### The whole scan -/

/-- The scan ends in a state that satisfies the invariant for all intervals,
    when these are ordered by start, have distinct registers, and every
    register has an allocatable class. -/
theorem ScanInv.scanIntervals (weights : Option SpillWeights) (intervals : List LiveInterval) :
    ∀ {done : List LiveInterval} {start : Nat} {s : ScanState},
      ScanInv classes callCrossing done start s →
      (∀ a ∈ done, ∀ b ∈ intervals, a.vreg ≠ b.vreg) →
      (∀ b ∈ intervals, start ≤ b.start) →
      intervals.Pairwise (fun a b => a.start ≤ b.start ∧ a.vreg ≠ b.vreg) →
      (∀ b ∈ intervals, ∃ cls bank, classes b.vreg = some cls ∧ bankOf cls = some bank) →
      ∃ s' start', scanIntervals classes callCrossing weights s intervals = some s' ∧
        ScanInv classes callCrossing (intervals.reverse ++ done) start' s' := by
  induction intervals with
  | nil => exact fun h _ _ _ _ => ⟨_, _, rfl, h⟩
  | cons current intervals ih =>
    intro done start s h hfresh hstart hpair hcls
    obtain ⟨cls, bank, hcls₁, hbank₁⟩ := hcls current List.mem_cons_self
    obtain ⟨s₁, hs₁, hinv⟩ := h.scanInterval
      (fun a ha => hfresh a ha current List.mem_cons_self)
      (hstart current List.mem_cons_self) hcls₁ hbank₁ weights
    obtain ⟨hhead, htail⟩ := List.pairwise_cons.mp hpair
    have hfresh' : ∀ a ∈ current :: done, ∀ b ∈ intervals, a.vreg ≠ b.vreg := by
      intro a ha b hb
      rcases List.mem_cons.mp ha with rfl | ha
      · exact (hhead b hb).2
      · exact hfresh a ha b (List.mem_cons_of_mem _ hb)
    obtain ⟨s', start', hs', hinv'⟩ := ih hinv hfresh' (fun b hb => (hhead b hb).1) htail
      (fun b hb => hcls b (List.mem_cons_of_mem _ hb))
    refine ⟨s', start', ?_, ?_⟩
    · simp only [Aarch64.scanIntervals, hs₁, Option.bind_eq_bind, Option.bind_some, hs']
    · rwa [List.reverse_cons, List.append_assoc]

end Scan

end Crabbit.Aarch64
