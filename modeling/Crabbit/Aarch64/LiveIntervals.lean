/-
  Crabbit.Aarch64.LiveIntervals

  The intervals of `collectLiveIntervals` cover liveness: a register that is
  live around an instruction has an interval that contains the instruction's
  layout index, and both ends of an interval are such indices.
-/

import Crabbit.Aarch64.RegisterAllocate

namespace Crabbit.Aarch64

open Crabbit.Lib

/-! ## Points -/

/-- `index` lies between the first and last point of `v`. -/
def Noted (points : Points) (v index : Nat) : Prop :=
  ∃ start stop, points v = some (start, stop) ∧ start ≤ index ∧ index ≤ stop

/-- Both ends of every range satisfy `R`. -/
def Sourced (R : Nat → Nat → Prop) (points : Points) : Prop :=
  ∀ v start stop, points v = some (start, stop) → R v start ∧ R v stop

theorem noted_notePoints_of_mem {regs : Finset Nat} {v : Nat} (hv : v ∈ regs) (index : Nat)
    (points : Points) : Noted (notePoints regs index points) v index := by
  unfold Noted notePoints
  rw [if_pos hv]
  cases points v with
  | none => exact ⟨index, index, rfl, Nat.le_refl _, Nat.le_refl _⟩
  | some p => exact ⟨_, _, rfl, Nat.min_le_right _ _, Nat.le_max_right _ _⟩

theorem Noted.notePoints {points : Points} {v index : Nat} (h : Noted points v index)
    (regs : Finset Nat) (index' : Nat) : Noted (notePoints regs index' points) v index := by
  obtain ⟨start, stop, hp, hstart, hstop⟩ := h
  unfold Noted Aarch64.notePoints
  rw [hp]
  split
  · exact ⟨_, _, rfl, Nat.le_trans (Nat.min_le_left _ _) hstart,
      Nat.le_trans hstop (Nat.le_max_left _ _)⟩
  · exact ⟨start, stop, rfl, hstart, hstop⟩

theorem Sourced.notePoints {R : Nat → Nat → Prop} {points : Points} (h : Sourced R points)
    {regs : Finset Nat} {index : Nat} (hregs : ∀ v ∈ regs, R v index) :
    Sourced R (notePoints regs index points) := by
  intro v start stop hp
  unfold Aarch64.notePoints at hp
  split at hp
  next hv =>
    cases hpv : points v with
    | none =>
      rw [hpv] at hp
      obtain ⟨rfl, rfl⟩ := Prod.mk.inj (Option.some.inj hp)
      exact ⟨hregs v hv, hregs v hv⟩
    | some p =>
      rw [hpv] at hp
      obtain ⟨rfl, rfl⟩ := Prod.mk.inj (Option.some.inj hp)
      obtain ⟨h1, h2⟩ := h v p.1 p.2 hpv
      refine ⟨?_, ?_⟩
      · rcases Nat.le_total p.1 index with hle | hle
        · rwa [Nat.min_eq_left hle]
        · rw [Nat.min_eq_right hle]
          exact hregs v hv
      · rcases Nat.le_total p.2 index with hle | hle
        · rw [Nat.max_eq_right hle]
          exact hregs v hv
        · rwa [Nat.max_eq_left hle]
  next => exact h v start stop hp

/-- The registers noted at instruction `k` of a block whose live-out set is
    `out`: those live after it, used by it or defined by it. -/
def occupants (g : FlowGraph Inst Nat) (insts : List Inst) (out : Finset Nat) (k : Nat)
    (inst : Inst) : Finset Nat :=
  g.liveBefore (insts.drop (k + 1)) out ∪ toSet (g.uses inst) ∪ toSet (g.defs inst)

section Block

variable (body : MachineBody)

theorem blockPoints_live (start : Nat) (insts : List Inst) (out : Finset Nat) (points : Points) :
    (blockPoints start insts out points).1 = (flowGraph body).liveBefore insts out := by
  induction insts generalizing start with
  | nil => rfl
  | cons inst insts ih =>
    simp only [blockPoints, ih]
    rfl

theorem blockPoints_cons (start : Nat) (inst : Inst) (insts : List Inst) (out : Finset Nat)
    (points : Points) :
    (blockPoints start (inst :: insts) out points).2 =
      notePoints (occupants (flowGraph body) (inst :: insts) out 0 inst) start
        (blockPoints (start + 1) insts out points).2 := by
  simp only [blockPoints, blockPoints_live body]
  rfl

theorem Noted.blockPoints {points : Points} {v index : Nat} (h : Noted points v index)
    (start : Nat) (insts : List Inst) (out : Finset Nat) :
    Noted (blockPoints start insts out points).2 v index := by
  induction insts generalizing start with
  | nil => exact h
  | cons inst insts ih =>
    rw [blockPoints_cons []]
    exact (ih (start + 1)).notePoints _ _

/-- Every occupant of an instruction is noted at its index. -/
theorem noted_blockPoints {insts : List Inst} {out : Finset Nat} {points : Points} {v : Nat} :
    ∀ {k start : Nat} {inst : Inst}, insts[k]? = some inst →
      v ∈ occupants (flowGraph body) insts out k inst →
      Noted (blockPoints start insts out points).2 v (start + k) := by
  induction insts with
  | nil => intro k start inst hinst; cases hinst
  | cons i insts ih =>
    intro k start inst hinst hv
    rw [blockPoints_cons body]
    cases k with
    | zero =>
      obtain rfl : i = inst := Option.some.inj hinst
      exact noted_notePoints_of_mem hv start _
    | succ k =>
      have hnext : Noted (blockPoints (start + 1) insts out points).2 v (start + 1 + k) := ih hinst hv
      rw [Nat.add_assoc, Nat.add_comm 1 k] at hnext
      exact hnext.notePoints _ _

theorem Sourced.blockPoints {R : Nat → Nat → Prop} {points : Points} (h : Sourced R points)
    {insts : List Inst} {out : Finset Nat} :
    ∀ {start : Nat}, (∀ k inst v, insts[k]? = some inst →
        v ∈ occupants (flowGraph body) insts out k inst → R v (start + k)) →
      Sourced R (blockPoints start insts out points).2 := by
  induction insts with
  | nil => exact fun _ => h
  | cons i insts ih =>
    intro start hR
    rw [blockPoints_cons body]
    refine Sourced.notePoints (ih fun k inst v hinst hv => ?_) fun v hv => hR 0 i v rfl hv
    have := hR (k + 1) inst v hinst hv
    rwa [Nat.add_assoc, Nat.add_comm 1 k]

theorem Noted.collectPoints {points : Points} {v index : Nat} (h : Noted points v index)
    (liveOut : Nat → Finset Nat) (blocks : List (List Inst)) :
    ∀ b start, Noted (collectPoints liveOut b start blocks points) v index := by
  induction blocks generalizing points with
  | nil => exact fun _ _ => h
  | cons insts blocks ih => exact fun b start => ih (h.blockPoints start insts _) _ _

theorem noted_collectPoints {liveOut : Nat → Finset Nat} {v : Nat} {blocks : List (List Inst)} :
    ∀ {points : Points} {b start j k : Nat} {insts : List Inst} {inst : Inst},
      blocks[j]? = some insts → insts[k]? = some inst →
      v ∈ occupants (flowGraph body) insts (liveOut (b + j)) k inst →
      Noted (collectPoints liveOut b start blocks points) v
        (start + ((blocks.take j).map (·.length)).sum + k) := by
  induction blocks with
  | nil => intro points b start j k insts inst hj; cases hj
  | cons first blocks ih =>
    intro points b start j k insts inst hj hk hv
    cases j with
    | zero =>
      obtain rfl : first = insts := Option.some.inj hj
      simp only [List.take_zero, List.map_nil, List.sum_nil, Nat.add_zero]
      exact (noted_blockPoints body hk hv).collectPoints _ _ _ _
    | succ j =>
      rw [show b + (j + 1) = b + 1 + j by omega] at hv
      rw [List.take_succ_cons, List.map_cons, List.sum_cons, ← Nat.add_assoc]
      exact ih hj hk hv

theorem Sourced.collectPoints {R : Nat → Nat → Prop} {liveOut : Nat → Finset Nat}
    {blocks : List (List Inst)} :
    ∀ {points : Points} {b start : Nat}, Sourced R points →
      (∀ j k insts inst v, blocks[j]? = some insts → insts[k]? = some inst →
        v ∈ occupants (flowGraph body) insts (liveOut (b + j)) k inst →
        R v (start + ((blocks.take j).map (·.length)).sum + k)) →
      Sourced R (collectPoints liveOut b start blocks points) := by
  induction blocks with
  | nil => intro points b start h _; exact h
  | cons first blocks ih =>
    intro points b start h hR
    refine ih (Sourced.blockPoints body h fun k inst v hinst hv => ?_)
      fun j k insts inst v hj hk hv => ?_
    · exact hR 0 k first inst v rfl hinst hv
    · have := hR (j + 1) k insts inst v hj hk (by rwa [show b + (j + 1) = b + 1 + j by omega])
      rwa [List.take_succ_cons, List.map_cons, List.sum_cons, ← Nat.add_assoc] at this

end Block

/-! ## Liveness around an instruction -/

section Body

variable {body : MachineBody}

theorem blockSuccessors_lt {b s : Nat} (h : s ∈ blockSuccessors body b) : s < body.length := by
  unfold blockSuccessors at h
  cases hb : body[b]? with
  | none =>
    rw [hb] at h
    cases h
  | some block =>
    simp only [hb] at h
    split at h
    next hcond =>
      rcases List.mem_append.mp h with h | h
      · exact of_decide_eq_true (List.mem_filter.mp h).2
      · rw [List.mem_singleton.mp h]
        exact hcond.2
    next => exact of_decide_eq_true (List.mem_filter.mp h).2

theorem flowGraph_closed (body : MachineBody) : (flowGraph body).Closed := by
  intro b _ s hs
  rw [show (flowGraph body).blocks.length = body.length from List.length_map _]
  exact blockSuccessors_lt hs

/-- Live around an instruction, in the terms of the interval construction. -/
theorem mem_occupants_iff {facts : Nat → Finset Nat × Finset Nat}
    (hfacts : (flowGraph body).liveSets = some facts) {b k : Nat} {inst : Inst}
    (hinst : ((flowGraph body).block b)[k]? = some inst) {v : Nat} :
    v ∈ occupants (flowGraph body) ((flowGraph body).block b) (facts b).2 k inst ↔
      (flowGraph body).LiveAround v b k := by
  have hb := FlowGraph.lt_of_block_getElem? hinst
  obtain ⟨hk, -⟩ := List.getElem?_eq_some_iff.mp hinst
  have hafter := FlowGraph.mem_liveBefore_iff (flowGraph_closed body) hfacts hb
    (Nat.succ_le_of_lt hk) (v := v)
  simp only [occupants, Finset.mem_union, mem_toSet, Nat.succ_eq_add_one] at hafter ⊢
  rw [hafter]
  constructor
  · rintro ((h | h) | h)
    · exact ⟨inst, hinst, .inr (.inl h)⟩
    · exact ⟨inst, hinst, .inl (.use hinst h)⟩
    · exact ⟨inst, hinst, .inr (.inr h)⟩
  · rintro ⟨inst', hinst', h⟩
    obtain rfl := Option.some.inj (hinst.symm.trans hinst')
    rcases h with h | h | h
    · cases h with
      | use hi huse =>
        obtain rfl := Option.some.inj (hinst.symm.trans hi)
        exact .inl (.inr huse)
      | pass hi _ hnext => exact .inl (.inl hnext)
      | edge => omega
    · exact .inl (.inl h)
    · exact .inr h

/-- Layout index of instruction `k` of block `b`. -/
def layoutIndex (body : MachineBody) (b k : Nat) : Nat := blockStart body b + k

theorem blockStart_eq (body : MachineBody) (b : Nat) :
    blockStart body b = (((body.map (·.insts)).take b).map (·.length)).sum := by
  unfold blockStart
  rw [← List.map_take, List.map_map]
  rfl

theorem block_eq_of_getElem? {b : Nat} {insts : List Inst}
    (h : (body.map (·.insts))[b]? = some insts) : (flowGraph body).block b = insts := by
  unfold FlowGraph.block
  rw [List.getD_eq_getElem?_getD, show (flowGraph body).blocks = body.map (·.insts) from rfl, h]
  rfl

theorem getElem?_block {b k : Nat} {inst : Inst}
    (hinst : ((flowGraph body).block b)[k]? = some inst) :
    (body.map (·.insts))[b]? = some ((flowGraph body).block b) := by
  have hb := FlowGraph.lt_of_block_getElem? hinst
  obtain ⟨insts, hsome⟩ : ∃ insts, (body.map (·.insts))[b]? = some insts :=
    ⟨_, List.getElem?_eq_getElem hb⟩
  rw [hsome, block_eq_of_getElem? hsome]

/-- The points of a whole body. -/
def bodyPoints (body : MachineBody) (facts : Nat → Finset Nat × Finset Nat) : Points :=
  collectPoints (fun b => (facts b).2) 0 0 (body.map (·.insts)) fun _ => none

theorem noted_of_liveAround {facts : Nat → Finset Nat × Finset Nat}
    (hfacts : (flowGraph body).liveSets = some facts) {v b k : Nat}
    (h : (flowGraph body).LiveAround v b k) :
    Noted (bodyPoints body facts) v (layoutIndex body b k) := by
  have ⟨inst, hinst, _⟩ := h
  have hocc := (mem_occupants_iff hfacts hinst).mpr h
  have hnoted : Noted (bodyPoints body facts) v
      (0 + (((body.map (·.insts)).take b).map (·.length)).sum + k) :=
    noted_collectPoints body (getElem?_block hinst) hinst (by rw [Nat.zero_add]; exact hocc)
  rwa [Nat.zero_add, ← blockStart_eq] at hnoted

/-- Both ends of the range of a register are indices it is live around. -/
theorem sourced_bodyPoints {facts : Nat → Finset Nat × Finset Nat}
    (hfacts : (flowGraph body).liveSets = some facts) :
    Sourced (fun v index => ∃ b k, (flowGraph body).LiveAround v b k ∧
      layoutIndex body b k = index) (bodyPoints body facts) := by
  refine Sourced.collectPoints body (fun v start stop h => by cases h) ?_
  intro j k insts inst v hj hk hv
  have hblock := block_eq_of_getElem? hj
  rw [Nat.zero_add] at hv
  refine ⟨j, k, (mem_occupants_iff hfacts (by rw [hblock]; exact hk)).mp ?_, ?_⟩
  · rw [hblock]
    exact hv
  · rw [layoutIndex, blockStart_eq, Nat.zero_add]

end Body

end Crabbit.Aarch64
