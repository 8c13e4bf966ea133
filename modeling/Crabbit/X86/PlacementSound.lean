/-
  Crabbit.X86.PlacementSound

  Block placement keeps the control flow of a function.  Making fall-throughs
  explicit gives every block but the last an end, so that no block depends on
  its position any more; the blocks may then be permuted, and the branches
  rewritten against the new layout do what they did before.
-/

import Crabbit.X86.BlockPlacement
import Mathlib.Data.List.GetD
import Mathlib.Data.List.Perm.Subperm
import Mathlib.Data.List.Nodup

namespace Crabbit.X86

open Crabbit.Lib.X64 (Flags condHolds)

/-! ## Conditions -/

theorem condHolds_invert (cond : ConditionCode) (f : Flags) :
    condHolds cond.invert.encoding f = !condHolds cond.encoding f := by
  cases cond <;> simp [ConditionCode.invert, ConditionCode.encoding, condHolds]

/-! ## Running a block -/

section Run

variable {S : Type} (m : Machine S)

theorem run_jmp {inst : WeightedInst} (h : inst.opcode = .jmp) (next : Option Nat)
    (rest : List WeightedInst) (s : S) :
    run m next (inst :: rest) s = inst.target.map fun target => (s, .block target) := by
  simp only [run, h]

theorem run_jcc {inst : WeightedInst} (h : inst.opcode = .jcc) (next : Option Nat)
    (rest : List WeightedInst) (s : S) :
    run m next (inst :: rest) s =
      inst.target.bind fun target => inst.cond.bind fun cond =>
        if condHolds cond.encoding (m.flags s) then some (s, .block target)
        else run m next rest s := by
  simp only [run, h]

theorem run_testJnz {inst : WeightedInst} (h : inst.opcode = .testJnz) (next : Option Nat)
    (rest : List WeightedInst) (s : S) :
    run m next (inst :: rest) s =
      inst.target.bind fun target => inst.rn.bind fun rn =>
        if m.reg s rn ≠ 0 then some (m.exec inst.toMachineInst s, .block target)
        else run m next rest (m.exec inst.toMachineInst s) := by
  simp only [run, h]

theorem run_exit {inst : WeightedInst} (h : inst.opcode = .ret ∨ inst.opcode = .ud2)
    (next : Option Nat) (rest : List WeightedInst) (s : S) :
    run m next (inst :: rest) s = some (s, if inst.opcode = .ret then .ret else .trap) := by
  rcases h with h | h <;> simp [run, h]

theorem run_straight_cons {inst : WeightedInst} (h : inst.Straight) (next : Option Nat)
    (rest : List WeightedInst) (s : S) :
    run m next (inst :: rest) s = run m next rest (m.exec inst.toMachineInst s) := by
  rw [WeightedInst.Straight] at h
  cases hop : inst.opcode <;> simp [hop] at h <;> simp only [run, hop]

/-- Straight-line code runs into what follows it, whatever that is. -/
theorem run_straightCode {straight : List WeightedInst} (h : ∀ inst ∈ straight, inst.Straight)
    (s : S) :
    ∃ s', ∀ next rest, run m next (straight ++ rest) s = run m next rest s' := by
  induction straight generalizing s with
  | nil => exact ⟨s, fun _ _ => rfl⟩
  | cons inst rest ih =>
    obtain ⟨s', hs'⟩ := ih (fun i hi => h i (List.mem_cons_of_mem _ hi))
      (m.exec inst.toMachineInst s)
    refine ⟨s', fun next tail => ?_⟩
    rw [List.cons_append, run_straight_cons m (h inst List.mem_cons_self), hs']

end Run

/-! ## Control transfers of a block -/

/-- The kinds an instruction can be of, as placement and the machine see them. -/
theorem opcode_cases (inst : WeightedInst) :
    inst.Straight ∨ inst.opcode = .jmp ∨ inst.opcode = .jcc ∨ inst.opcode = .testJnz ∨
      inst.opcode = .ret ∨ inst.opcode = .ud2 := by
  rw [WeightedInst.Straight]
  cases inst.opcode <;> simp

theorem classify_straight {inst : WeightedInst} (h : inst.Straight) (op : Nat) :
    classifyControlFlow op inst = none := by
  rw [WeightedInst.Straight] at h
  cases hop : inst.opcode <;> simp [hop] at h <;> simp [classifyControlFlow, hop]

theorem controlFlowFrom_straight {straight : List WeightedInst}
    (h : ∀ inst ∈ straight, inst.Straight) (op : Nat) (rest : List WeightedInst) :
    controlFlowFrom op (straight ++ rest) = controlFlowFrom (op + straight.length) rest := by
  induction straight generalizing op with
  | nil => rfl
  | cons inst tail ih =>
    rw [List.cons_append, controlFlowFrom, classify_straight (h inst List.mem_cons_self)]
    change controlFlowFrom (op + 1) (tail ++ rest) = _
    rw [ih (fun i hi => h i (List.mem_cons_of_mem _ hi)), List.length_cons, Nat.add_right_comm,
      Nat.add_assoc]

theorem classify_final {inst : WeightedInst} (h : inst.Final) (op : Nat) :
    (∃ target, inst.opcode = .jmp ∧ inst.target = some target ∧
      classifyControlFlow op inst = some (.unconditional op target)) ∨
    (inst.opcode = .ret ∨ inst.opcode = .ud2) ∧ classifyControlFlow op inst = some .exit := by
  rcases h with ⟨hop, htarget⟩ | h
  · obtain ⟨target, htarget⟩ := Option.isSome_iff_exists.mp htarget
    exact .inl ⟨target, hop, htarget, by simp [classifyControlFlow, hop, htarget]⟩
  · exact .inr ⟨h, by rw [classifyControlFlow, if_pos h]⟩

theorem classify_conditional {inst : WeightedInst} (h : inst.Conditional) (op : Nat) :
    ∃ target, inst.target = some target ∧
      classifyControlFlow op inst = some (.conditional op target inst.branchWeights) := by
  obtain ⟨htarget, hop⟩ := h
  obtain ⟨target, htarget⟩ := Option.isSome_iff_exists.mp htarget
  refine ⟨target, htarget, ?_⟩
  rcases hop with ⟨hop, -⟩ | ⟨hop, -⟩ <;> simp [classifyControlFlow, hop, htarget]

/-! ## Where a block's position matters -/

section Position

variable {S : Type} (m : Machine S)

/-- An instruction either decides by itself where control goes, or control goes
    on behind it, where the block has the end it has from there. -/
theorem run_cons (inst : WeightedInst) (s : S) :
    (∃ r, ∀ next rest, run m next (inst :: rest) s = r) ∨
      (∃ s', ∀ next rest, run m next (inst :: rest) s = run m next rest s') ∧
        ∀ op rest, (controlFlowFrom op (inst :: rest)).2 = (controlFlowFrom (op + 1) rest).2 := by
  have hends : ∀ target, inst.target = some target → inst.opcode = .jcc ∨ inst.opcode = .testJnz →
      ∀ op rest, (controlFlowFrom op (inst :: rest)).2 = (controlFlowFrom (op + 1) rest).2 := by
    intro target htarget hop op rest
    have hclass : classifyControlFlow op inst =
        some (.conditional op target inst.branchWeights) := by
      rcases hop with hop | hop <;> simp [classifyControlFlow, hop, htarget]
    rw [controlFlowFrom, hclass]
  rcases opcode_cases inst with hop | hop | hop | hop | hop
  · refine .inr ⟨⟨_, fun next rest => run_straight_cons m hop next rest s⟩, fun op rest => ?_⟩
    rw [controlFlowFrom, classify_straight hop]
  · exact .inl ⟨_, fun next rest => run_jmp m hop next rest s⟩
  · -- A conditional jump: it is taken, or it is not.
    simp only [run_jcc m hop]
    cases htarget : inst.target with
    | none => exact .inl ⟨none, fun _ _ => rfl⟩
    | some target =>
      cases inst.cond with
      | none => exact .inl ⟨none, fun _ _ => rfl⟩
      | some cond =>
        simp only [Option.bind_some]
        by_cases htaken : condHolds cond.encoding (m.flags s)
        · exact .inl ⟨_, fun _ _ => if_pos htaken⟩
        · exact .inr ⟨⟨s, fun _ _ => if_neg htaken⟩, hends target htarget (.inl hop)⟩
  · simp only [run_testJnz m hop]
    cases htarget : inst.target with
    | none => exact .inl ⟨none, fun _ _ => rfl⟩
    | some target =>
      cases inst.rn with
      | none => exact .inl ⟨none, fun _ _ => rfl⟩
      | some rn =>
        simp only [Option.bind_some]
        by_cases htaken : m.reg s rn ≠ 0
        · exact .inl ⟨_, fun _ _ => if_pos htaken⟩
        · exact .inr ⟨⟨_, fun _ _ => if_neg htaken⟩, hends target htarget (.inr hop)⟩
  · exact .inl ⟨_, fun next rest => run_exit m hop next rest s⟩

/-- A block that falls through is as good as one that jumps to the next block. -/
theorem run_append_jmp {insts : List WeightedInst} {op : Nat}
    (h : (controlFlowFrom op insts).2 = none) (next : Option Nat) (target : Nat) (s : S) :
    run m next (insts ++ [jmp target]) s = run m (some target) insts s := by
  induction insts generalizing op s with
  | nil => rfl
  | cons inst rest ih =>
    rw [List.cons_append]
    rcases run_cons m inst s with ⟨r, hr⟩ | ⟨⟨s', hs'⟩, hends⟩
    · rw [hr, hr]
    · rw [hends] at h
      rw [hs', hs', ih h]

/-- A block with an end does not depend on the block laid out next. -/
theorem run_of_ended {insts : List WeightedInst} {op : Nat}
    (h : (controlFlowFrom op insts).2 ≠ none) (next next' : Option Nat) (s : S) :
    run m next insts s = run m next' insts s := by
  induction insts generalizing op s with
  | nil => exact absurd rfl h
  | cons inst rest ih =>
    rcases run_cons m inst s with ⟨r, hr⟩ | ⟨⟨s', hs'⟩, hends⟩
    · rw [hr, hr]
    · rw [hends] at h
      rw [hs', hs', ih h]

/-- Where a block leaves without a block behind it, it leaves so before any block. -/
theorem run_mono {insts : List WeightedInst} {s : S} {r : S × Leave}
    (h : run m none insts s = some r) (next : Option Nat) : run m next insts s = some r := by
  induction insts generalizing s with
  | nil => cases h
  | cons inst rest ih =>
    rcases run_cons m inst s with ⟨r', hr⟩ | ⟨⟨s', hs'⟩, -⟩
    · rw [hr] at h ⊢
      exact h
    · rw [hs'] at h ⊢
      exact ih h

end Position

/-! ## Rewritten branches -/

/-- What the instructions of an emitted block become before `next`: what they
    were, or without a final jump there, or with the conditional turned around
    over a final jump elsewhere. -/
theorem simplifiedInsts_cases {block : MachineBlock} (form : Emitted block.insts) (next : Nat) :
    simplifiedInsts next block = block.insts ∨
    (∃ branch, form.final = some branch ∧ branch.opcode = .jmp ∧ branch.target = some next ∧
      simplifiedInsts next block = form.straight ++ form.conditional.toList) ∨
    (∃ branch inst cond target, form.final = some branch ∧ branch.opcode = .jmp ∧
      branch.target = some target ∧ form.conditional = some inst ∧ inst.opcode = .jcc ∧
      inst.target = some next ∧ inst.cond = some cond ∧
      simplifiedInsts next block =
        form.straight ++ [inst.inverted cond target inst.branchWeights]) := by
  obtain ⟨id, insts⟩ := block
  obtain ⟨straight, conditional, final, heq, hstraight, hconditional, hfinal⟩ := form
  change insts = _ at heq
  subst heq
  simp only [simplifiedInsts, blockControlFlow, List.append_assoc,
    controlFlowFrom_straight hstraight, Nat.zero_add]
  cases final with
  | none =>
    cases conditional with
    | none => exact .inl rfl
    | some inst =>
      obtain ⟨target, -, hclass⟩ := classify_conditional (hconditional inst rfl) straight.length
      left
      simp only [Option.toList_some, Option.toList_none, List.append_nil, controlFlowFrom, hclass]
  | some branch =>
    cases conditional with
    | none =>
      rcases classify_final (hfinal branch rfl) straight.length with
        ⟨target, hop, htarget, hclass⟩ | ⟨-, hclass⟩
      · simp only [Option.toList_some, Option.toList_none, List.nil_append, controlFlowFrom, hclass]
        by_cases hnext : target = next
        · subst hnext
          refine .inr (.inl ⟨branch, rfl, hop, htarget, ?_⟩)
          rw [if_pos rfl, List.append_nil, List.eraseIdx_append_of_length_le (Nat.le_refl _),
            Nat.sub_self]
          exact List.append_nil _
        · exact .inl (if_neg hnext)
      · left
        simp only [Option.toList_some, Option.toList_none, List.nil_append, controlFlowFrom, hclass]
    | some inst =>
      obtain ⟨dest, hdest, hcond⟩ := classify_conditional (hconditional inst rfl) straight.length
      rcases classify_final (hfinal branch rfl) (straight.length + 1) with
        ⟨target, hop, htarget, hclass⟩ | ⟨-, hclass⟩
      · simp only [Option.toList_some, List.singleton_append, controlFlowFrom, hcond, hclass]
        by_cases hnext : target = next
        · subst hnext
          refine .inr (.inl ⟨branch, rfl, hop, htarget, ?_⟩)
          rw [if_pos rfl, List.eraseIdx_append_of_length_le (Nat.le_add_right _ 1),
            Nat.add_sub_cancel_left]
          rfl
        · rw [if_neg hnext]
          by_cases hdestNext : dest = next
          · rw [if_pos hdestNext, invertConditional,
              List.getElem?_append_right (Nat.le_refl _), Nat.sub_self]
            rcases (hconditional inst rfl).2 with ⟨hjcc, hsome⟩ | ⟨htest, -⟩
            · obtain ⟨cond, hcc⟩ := Option.isSome_iff_exists.mp hsome
              refine .inr (.inr ⟨branch, inst, cond, target, rfl, hop, htarget, rfl, hjcc,
                hdestNext ▸ hdest, hcc, ?_⟩)
              simp only [List.getElem?_cons_zero, if_pos hjcc, hcc]
              rw [List.set_append_right _ _ (Nat.le_refl _), Nat.sub_self,
                List.eraseIdx_append_of_length_le (Nat.le_add_right _ 1), Nat.add_sub_cancel_left]
              rfl
            · left
              simp only [List.getElem?_cons_zero, htest]
              rfl
          · exact .inl (if_neg hdestNext)
      · left
        simp only [Option.toList_some, List.singleton_append, controlFlowFrom, hcond, hclass]

/-- The rewritten block does what the block did before `next`. -/
theorem run_simplifiedInsts {S : Type} (m : Machine S) {block : MachineBlock}
    (form : Emitted block.insts) (next : Nat) (s : S) :
    run m (some next) (simplifiedInsts next block) s = run m (some next) block.insts s := by
  obtain ⟨s', hs'⟩ := run_straightCode m form.hstraight s
  rcases simplifiedInsts_cases form next with
    h | ⟨branch, hfinal, hop, htarget, h⟩ |
    ⟨branch, inst, cond, target, hfinal, hop, htarget, hconditional, hjcc, hnext, hcond, h⟩
  · rw [h]
  · rw [h]
    conv => rhs; rw [form.eq, List.append_assoc, hfinal, hs']
    rw [hs']
    have hjump : ∀ s, run m (some next) [branch] s = run m (some next) [] s := by
      intro s
      rw [run_jmp m hop, htarget]
      rfl
    cases hcond : form.conditional with
    | none => exact (hjump s').symm
    | some inst =>
      rcases run_cons m inst s' with ⟨r, hr⟩ | ⟨⟨s'', hs''⟩, -⟩
      · exact (hr _ _).trans (hr _ _).symm
      · exact (hs'' _ _).trans ((hjump s'').symm.trans (hs'' _ _).symm)
  · rw [h, hs']
    conv => rhs; rw [form.eq, List.append_assoc, hfinal, hconditional, hs']
    rw [run_jcc m (show (inst.inverted cond target inst.branchWeights).opcode = .jcc from hjcc)]
    change (if condHolds cond.invert.encoding (m.flags s') then some (s', Leave.block target)
      else some (s', .block next)) = run m (some next) [inst, branch] s'
    rw [run_jcc m hjcc, run_jmp m hop, hnext, hcond, htarget, condHolds_invert]
    simp only [Option.bind_some, Option.map_some]
    cases condHolds cond.encoding (m.flags s') <;> rfl

/-- A rewritten block is again of one of the forms. -/
theorem formed_simplifiedInsts {block : MachineBlock} (h : block.Formed) (next : Nat) :
    Nonempty (Emitted (simplifiedInsts next block)) := by
  obtain ⟨form⟩ := h
  rcases simplifiedInsts_cases form next with
    heq | ⟨branch, hfinal, hop, htarget, heq⟩ |
    ⟨branch, inst, cond, target, hfinal, hop, htarget, hconditional, hjcc, hnext, hcond, heq⟩
  · rw [heq]
    exact ⟨form⟩
  · rw [heq]
    exact ⟨{
      straight := form.straight
      conditional := form.conditional
      final := none
      eq := (List.append_nil _).symm
      hstraight := form.hstraight
      hconditional := form.hconditional
      hfinal := fun _ h => nomatch h }⟩
  · rw [heq]
    refine ⟨{
      straight := form.straight
      conditional := some (inst.inverted cond target inst.branchWeights)
      final := none
      eq := (List.append_nil _).symm
      hstraight := form.hstraight
      hconditional := ?_
      hfinal := fun _ h => nomatch h }⟩
    intro _ h
    cases Option.mem_some_iff.mp h
    exact ⟨rfl, .inl ⟨hjcc, rfl⟩⟩

/-! ## Layouts -/

/-- The names of the blocks, in layout order. -/
def ids (blocks : List MachineBlock) : List Nat := blocks.map MachineBlock.id

@[simp] theorem ids_cons (block : MachineBlock) (rest : List MachineBlock) :
    ids (block :: rest) = block.id :: ids rest := rfl

theorem ids_perm {blocks blocks' : List MachineBlock} (h : blocks.Perm blocks') :
    (ids blocks).Perm (ids blocks') := h.map MachineBlock.id

section Layout

variable {S : Type} (m : Machine S)

theorem continues_head (block : MachineBlock) (rest : List MachineBlock) (s : S) :
    continues m (block :: rest) block.id s =
      run m ((ids rest).head?) block.insts s := by
  rw [continues, List.find?_cons_of_pos (by simp)]
  cases rest with
  | nil => rfl
  | cons next tail => simp [blockBehind]

theorem continues_tail {block : MachineBlock} {id : Nat} (h : block.id ≠ id)
    (rest : List MachineBlock) (s : S) :
    continues m (block :: rest) id s = continues m rest id s := by
  rw [continues, List.find?_cons_of_neg (by simpa using h), continues]
  cases rest with
  | nil => rfl
  | cons next tail => rw [blockBehind, if_neg h]

@[simp] theorem ids_materialize (blocks : List MachineBlock) :
    ids (materializeFallthroughBranches blocks) = ids blocks := by
  fun_induction materializeFallthroughBranches blocks with
  | case1 block next rest ih =>
    rw [ids_cons, ih, materializeFallthrough]
    split <;> rfl
  | case2 => rfl

@[simp] theorem ids_simplify (blocks : List MachineBlock) :
    ids (simplifyBranchesForLayout blocks) = ids blocks := by
  fun_induction simplifyBranchesForLayout blocks with
  | case1 block next rest ih =>
    rw [ids_cons, ih]
    rfl
  | case2 => rfl

/-- Once fall-throughs are explicit, a block continues wherever it is laid out
    as it did in the old layout. -/
theorem run_materialized {blocks : List MachineBlock} {id : Nat} {s : S} {r : S × Leave}
    (h : continues m blocks id s = some r) :
    ∃ block ∈ materializeFallthroughBranches blocks, block.id = id ∧
      ∀ next, run m next block.insts s = some r := by
  fun_induction materializeFallthroughBranches blocks with
  | case1 block next rest ih =>
    by_cases hid : block.id = id
    · subst hid
      rw [continues_head] at h
      refine ⟨_, List.mem_cons_self, ?_, fun next' => ?_⟩
      · rw [materializeFallthrough]
        split <;> rfl
      · rw [materializeFallthrough]
        split
        · next hend => exact (run_append_jmp m hend _ _ _).trans h
        · next hend => exact (run_of_ended m hend _ _ _).trans h
    · rw [continues_tail m hid] at h
      obtain ⟨found, hfound, hrun⟩ := ih h
      exact ⟨found, List.mem_cons_of_mem _ hfound, hrun⟩
  | case2 blocks hshort =>
    match blocks, hshort with
    | [], _ => cases h
    | [block], _ =>
      by_cases hid : block.id = id
      · subst hid
        rw [continues_head] at h
        exact ⟨block, List.mem_cons_self, rfl, run_mono m h⟩
      · rw [continues_tail m hid] at h
        cases h
    | block :: next :: rest, hshort => exact absurd rfl (hshort _ _ _)

/-- Blocks that do not depend on their position continue alike after the
    branches are rewritten against the layout. -/
theorem continues_simplified {blocks : List MachineBlock} (hnodup : (ids blocks).Nodup)
    {block : MachineBlock} (hmem : block ∈ blocks) (hform : block.Formed) {s : S} {r : S × Leave}
    (hrun : ∀ next, run m next block.insts s = some r) :
    continues m (simplifyBranchesForLayout blocks) block.id s = some r := by
  fun_induction simplifyBranchesForLayout blocks with
  | case1 head next rest ih =>
    rw [ids_cons, List.nodup_cons] at hnodup
    rcases List.mem_cons.mp hmem with rfl | htail
    · obtain ⟨form⟩ := hform
      have hhead := continues_head m
        { block with insts := simplifiedInsts next.id block }
        (simplifyBranchesForLayout (next :: rest)) s
      rw [ids_simplify] at hhead
      exact hhead.trans ((run_simplifiedInsts m form next.id s).trans (hrun _))
    · have hne : head.id ≠ block.id := fun heq =>
        hnodup.1 (heq ▸ List.mem_map_of_mem htail)
      exact (@continues_tail S m { head with insts := simplifiedInsts next.id head } block.id hne _
        s).trans (ih hnodup.2 htail)
  | case2 blocks hshort =>
    match blocks, hshort with
    | [], _ => cases hmem
    | [only], _ =>
      cases List.mem_singleton.mp hmem
      exact (continues_head m block [] s).trans (hrun _)
    | head :: next :: rest, hshort => exact absurd rfl (hshort _ _ _)

end Layout

/-- Explicit fall-throughs leave the blocks in their forms. -/
theorem formed_materialize {blocks : List MachineBlock} (h : ∀ block ∈ blocks, block.Formed) :
    ∀ block ∈ materializeFallthroughBranches blocks, block.Formed := by
  fun_induction materializeFallthroughBranches blocks with
  | case1 head next rest ih =>
    intro block hmem
    rcases List.mem_cons.mp hmem with rfl | htail
    · obtain ⟨form⟩ := h head List.mem_cons_self
      rw [materializeFallthrough]
      split
      · next hend =>
        -- A block without an end has no final jump to stand behind.
        have hfinal : form.final = none := by
          cases hf : form.final with
          | none => rfl
          | some branch =>
            rw [blockControlFlow, form.eq, hf, List.append_assoc,
              controlFlowFrom_straight form.hstraight] at hend
            have hbranch : ∀ op, (controlFlowFrom op [branch]).2 ≠ none := by
              intro op
              rcases classify_final (form.hfinal branch hf) op with ⟨_, -, -, hc⟩ | ⟨-, hc⟩ <;>
                simp [controlFlowFrom, hc]
            cases hcond : form.conditional with
            | none =>
              rw [hcond] at hend
              exact absurd hend (hbranch _)
            | some inst =>
              obtain ⟨_, -, hc⟩ := classify_conditional (form.hconditional inst hcond)
                (0 + form.straight.length)
              rw [hcond, Option.toList_some, List.singleton_append, controlFlowFrom, hc] at hend
              exact absurd hend (hbranch _)
        refine ⟨{
          straight := form.straight
          conditional := form.conditional
          final := some (jmp next.id)
          eq := ?_
          hstraight := form.hstraight
          hconditional := form.hconditional
          hfinal := ?_ }⟩
        · have heq := form.eq
          rw [hfinal] at heq
          exact congrArg (· ++ [jmp next.id]) (heq.trans (List.append_nil _))
        · intro branch hbranch
          cases Option.mem_some_iff.mp hbranch
          exact .inl ⟨rfl, rfl⟩
      · exact ⟨form⟩
    · exact ih (fun b hb => h b (List.mem_cons_of_mem _ hb)) block htail
  | case2 => exact h

theorem formed_simplify {blocks : List MachineBlock} (h : ∀ block ∈ blocks, block.Formed) :
    ∀ block ∈ simplifyBranchesForLayout blocks, block.Formed := by
  fun_induction simplifyBranchesForLayout blocks with
  | case1 head next rest ih =>
    intro block hmem
    rcases List.mem_cons.mp hmem with rfl | htail
    · exact formed_simplifiedInsts (h head List.mem_cons_self) next.id
    · exact ih (fun b hb => h b (List.mem_cons_of_mem _ hb)) block htail
  | case2 => exact h

/-! ## The order -/

theorem maxByKey_mem {key : Nat → Nat × Nat} {xs : List Nat} {b : Nat}
    (h : maxByKey key xs = some b) : b ∈ xs := by
  cases xs with
  | nil => cases h
  | cons a rest =>
    rw [maxByKey, Option.some.injEq] at h
    subst h
    have hfold : ∀ (rest : List Nat) (best : Nat),
        rest.foldl (fun best c => if keyLt (key c) (key best) then best else c) best ∈
          best :: rest := by
      intro rest
      induction rest with
      | nil => exact fun best => List.mem_cons_self
      | cons c tail ih =>
        intro best
        have hstep : (if keyLt (key c) (key best) then best else c) ∈ [best, c] := by
          split <;> simp
        rcases List.mem_cons.mp (ih (if keyLt (key c) (key best) then best else c)) with hm | hm
        · rw [List.foldl_cons, hm]
          exact List.mem_append_left tail hstep
        · exact List.mem_cons_of_mem _ (List.mem_cons_of_mem _ hm)
    exact hfold rest a

theorem maxByKey_isSome (key : Nat → Nat × Nat) {xs : List Nat} (h : xs ≠ []) :
    ∃ b, maxByKey key xs = some b := by
  cases xs with
  | nil => exact absurd rfl h
  | cons a rest => exact ⟨_, rfl⟩

/-- A chain in the making: its blocks are marked, and there are `left` others. -/
structure ChainState.Chain (count left : Nat) (st : ChainState) : Prop where
  length : st.placed.length = count
  head : st.order.head? = some 0
  nodup : st.order.Nodup
  lt : ∀ b ∈ st.order, b < count
  marked : ∀ b < count, st.placed.getD b true = true ↔ b ∈ st.order
  left : st.order.length + left = count

theorem ChainState.Chain.mem_of_unplaced {count left : Nat} {st : ChainState}
    (h : st.Chain count left) {b : Nat} (hb : st.unplaced b = true) :
    b < count ∧ b ∉ st.order := by
  have hfalse : st.placed.getD b true = false := by
    rw [ChainState.unplaced] at hb
    simpa using hb
  have hlt : b < count := by
    by_contra hge
    rw [List.getD_eq_default _ _ (by rw [h.length]; omega)] at hfalse
    cases hfalse
  exact ⟨hlt, fun hmem => by rw [(h.marked b hlt).mpr hmem] at hfalse; cases hfalse⟩

/-- While a block is missing there is a next one, and it is missing. -/
theorem nextBlock_spec {count left : Nat} (successors : List (List CfgEdge)) (info : HotPathInfo)
    {st : ChainState} (h : st.Chain count (left + 1)) :
    ∃ next, nextBlock count successors info st = some next ∧ st.unplaced next = true := by
  rw [nextBlock]
  split
  · next b hb => exact ⟨b, rfl, (List.mem_filter.mp (maxByKey_mem hb)).2⟩
  · have hsome : (List.range count).filter st.unplaced ≠ [] := by
      intro hempty
      have hsub : List.range count ⊆ st.order := by
        intro b hb
        have hlt := List.mem_range.mp hb
        have hplaced := List.filter_eq_nil_iff.mp hempty b hb
        apply (h.marked b hlt).mp
        rw [ChainState.unplaced] at hplaced
        simpa using hplaced
      have hle := (List.nodup_range.subperm hsub).length_le
      rw [List.length_range] at hle
      have hleft := h.left
      omega
    obtain ⟨b, hb⟩ := maxByKey_isSome
      (fun b => (info.blockFrequency b, 2 ^ 64 - 1 - b)) hsome
    exact ⟨b, hb, (List.mem_filter.mp (maxByKey_mem hb)).2⟩

theorem ChainState.Chain.place {count left : Nat} {st : ChainState}
    (h : st.Chain count (left + 1)) {b : Nat} (hb : st.unplaced b = true) :
    (st.place b).Chain count left := by
  obtain ⟨hlt, hnew⟩ := h.mem_of_unplaced hb
  have hleft := h.left
  refine ⟨(List.length_set).trans h.length, ?_, ?_, ?_, ?_, ?_⟩
  · change (st.order ++ [b]).head? = some 0
    rw [List.head?_append, h.head]
    rfl
  · exact List.nodup_append.mpr ⟨h.nodup, List.nodup_singleton b, fun a ha c hc => by
      rw [List.mem_singleton.mp hc]
      exact fun heq => hnew (heq ▸ ha)⟩
  · intro c hc
    rcases List.mem_append.mp hc with hc | hc
    · exact h.lt c hc
    · rwa [List.mem_singleton.mp hc]
  · intro c hc
    change (st.placed.set b true).getD c true = true ↔ c ∈ st.order ++ [b]
    rw [List.getD_eq_getElem?_getD, List.getElem?_set, List.mem_append, List.mem_singleton,
      ← h.marked c hc, List.getD_eq_getElem?_getD]
    by_cases hbc : b = c
    · subst hbc
      rw [if_pos rfl, if_pos (h.length ▸ hlt)]
      simp
    · rw [if_neg hbc]
      simp [Ne.symm hbc]
  · change (st.order ++ [b]).length + left = count
    rw [List.length_append, List.length_singleton]
    omega

/-- The order of the chain: every block once, the entry first. -/
theorem chainOrder_spec {count : Nat} (hcount : 0 < count) (successors : List (List CfgEdge))
    (info : HotPathInfo) :
    ∃ rest, chainOrder count successors info = some (0 :: rest) ∧
      (0 :: rest).Perm (List.range count) := by
  have hloop : ∀ left st, st.Chain count left →
      ∃ order, chainLoop count successors info left st = some order ∧ order.head? = some 0 ∧
        order.Perm (List.range count) := by
    intro left
    induction left with
    | zero =>
      intro st h
      refine ⟨st.order, rfl, h.head, ?_⟩
      apply (h.nodup.subperm fun b hb => List.mem_range.mpr (h.lt b hb)).perm_of_length_le
      rw [List.length_range]
      exact Nat.le_of_eq h.left.symm
    | succ left ih =>
      intro st h
      obtain ⟨next, hnext, hunplaced⟩ := nextBlock_spec successors info h
      rw [chainLoop, hnext]
      exact ih _ (h.place hunplaced)
  have hstart : ChainState.Chain count (count - 1)
      { placed := (List.replicate count false).set 0 true, order := [0], current := 0 } := by
    refine ⟨by simp, rfl, List.nodup_singleton 0, fun b hb => List.mem_singleton.mp hb ▸ hcount,
      fun b hb => ?_, by change 1 + (count - 1) = count; omega⟩
    rw [List.getD_eq_getElem?_getD, List.getElem?_set, List.mem_singleton]
    by_cases h0 : 0 = b
    · subst h0
      simp [hcount]
    · rw [if_neg h0, List.getElem?_replicate, if_pos hb]
      simp [Ne.symm h0]
  obtain ⟨order, horder, hhead, hperm⟩ := hloop _ _ hstart
  cases order with
  | nil => cases hhead
  | cons first rest =>
    cases hhead
    exact ⟨rest, horder, hperm⟩

/-! ## Applying the order -/

/-- Blocks moved to the back one after another end up there in their order. -/
theorem foldl_moveToBack {moved : List MachineBlock} (h : (ids moved).Nodup)
    (layout : List MachineBlock) :
    moved.foldl moveToBack layout =
      layout.filter (fun block => !(ids moved).contains block.id) ++ moved := by
  induction moved generalizing layout with
  | nil =>
    rw [List.append_nil]
    exact (List.filter_eq_self.mpr fun _ _ => rfl).symm
  | cons block rest ih =>
    rw [ids_cons, List.nodup_cons] at h
    have hkept : [block].filter (fun b => !(ids rest).contains b.id) = [block] := by
      simpa using h.1
    rw [List.foldl_cons, ih h.2, moveToBack, List.filter_append, hkept, List.filter_filter,
      List.append_assoc, List.singleton_append]
    congr 2
    funext other
    rw [ids_cons, List.contains_cons, Bool.not_or, Bool.and_comm]
    rfl

theorem filterMap_range_getElem? {α : Type} (xs : List α) :
    (List.range xs.length).filterMap (fun index => xs[index]?) = xs := by
  induction xs with
  | nil => rfl
  | cons x rest ih =>
    rw [List.length_cons, List.range_succ_eq_map, List.filterMap_cons]
    simp only [List.getElem?_cons_zero, List.filterMap_map]
    exact congrArg (x :: ·) ih

/-- The new layout: the entry where it was, the other blocks in another order. -/
theorem applyOrder_spec {block : MachineBlock} {others : List MachineBlock} {rest : List Nat}
    (hnodup : (ids (block :: others)).Nodup)
    (horder : (0 :: rest).Perm (List.range (others.length + 1))) :
    ∃ moved, applyOrder (block :: others) (0 :: rest) = block :: moved ∧ moved.Perm others := by
  have hmoved : (rest.filterMap fun index => (block :: others)[index]?).Perm others := by
    have hperm := horder.filterMap fun index => (block :: others)[index]?
    have hall := filterMap_range_getElem? (block :: others)
    rw [List.length_cons] at hall
    rw [hall] at hperm
    exact hperm.cons_inv
  rw [ids_cons, List.nodup_cons] at hnodup
  have hids : (ids (rest.filterMap fun index => (block :: others)[index]?)).Perm (ids others) :=
    ids_perm hmoved
  refine ⟨_, ?_, hmoved⟩
  change (rest.filterMap fun index => (block :: others)[index]?).foldl moveToBack
    (block :: others) = _
  rw [foldl_moveToBack (hids.nodup_iff.mpr hnodup.2), List.filter_cons_of_pos,
    List.filter_eq_nil_iff.mpr]
  · rfl
  · intro other hother
    simpa using hids.mem_iff.mpr (List.mem_map_of_mem hother)
  · simpa using fun hmem => hnodup.1 (hids.mem_iff.mp hmem)

/-! ## The pass -/

/-- The blocks of a function laid out anew: the same blocks with the entry
    first, and from every block and state execution continues as before. -/
structure Placement (before after : List MachineBlock) : Prop where
  perm : (ids after).Perm (ids before)
  entry : (ids after).head? = (ids before).head?
  flow : ∀ (S : Type) (m : Machine S) (id : Nat) (s : S) (r : S × Leave),
    continues m before id s = some r → continues m after id s = some r

theorem Placement.trans {before between after : List MachineBlock} (h : Placement before between)
    (h' : Placement between after) : Placement before after where
  perm := h'.perm.trans h.perm
  entry := h'.entry.trans h.entry
  flow S m id s r hr := h'.flow S m id s r (h.flow S m id s r hr)

/-- One run of the pass over blocks of the emitted forms, which it keeps. -/
theorem placeBlocks_placement (fromEdges : List (List CfgEdge) → HotPathInfo)
    {blocks : List MachineBlock} (hnodup : (ids blocks).Nodup)
    (hforms : ∀ block ∈ blocks, block.Formed) :
    ∃ placed, placeBlocks fromEdges blocks = some placed ∧ Placement blocks placed ∧
      ∀ block ∈ placed, block.Formed := by
  rw [placeBlocks]
  split
  · exact ⟨blocks, rfl, ⟨.refl _, rfl, fun _ _ _ _ _ h => h⟩, hforms⟩
  · next hlen =>
    have hids := ids_materialize blocks
    have hexplicit := formed_materialize hforms
    have hsettled := fun (S : Type) (m : Machine S) (id : Nat) (s : S) (r : S × Leave)
      (h : continues m blocks id s = some r) => run_materialized m h
    obtain ⟨block, others, heq⟩ : ∃ block others,
        materializeFallthroughBranches blocks = block :: others := by
      cases hcases : materializeFallthroughBranches blocks with
      | nil =>
        rw [hcases] at hids
        have hzero := congrArg List.length hids
        simp [ids] at hzero
        omega
      | cons block others => exact ⟨block, others, rfl⟩
    rw [heq] at hids hexplicit hsettled ⊢
    obtain ⟨rest, horder, hperm⟩ := chainOrder_spec (Nat.succ_pos others.length)
      (machineCfgEdges (block :: others)) (fromEdges (machineCfgEdges (block :: others)))
    obtain ⟨moved, hmoved, hpermMoved⟩ := applyOrder_spec (hids.symm ▸ hnodup) hperm
    have hlayout : (block :: moved).Perm (block :: others) := hpermMoved.cons block
    have hnodupLayout : (ids (block :: moved)).Nodup := by
      rw [(ids_perm hlayout).nodup_iff]
      exact hids.symm ▸ hnodup
    refine ⟨simplifyBranchesForLayout (block :: moved), ?_, ⟨?_, ?_, ?_⟩, ?_⟩
    · change (chainOrder (others.length + 1) _ _).map _ = _
      rw [horder, Option.map_some, hmoved]
    · rw [ids_simplify, ← hids]
      exact ids_perm hlayout
    · rw [ids_simplify, ← hids]
      rfl
    · intro S m id s r hr
      obtain ⟨found, hfound, rfl, hfoundRun⟩ := hsettled S m id s r hr
      exact continues_simplified m hnodupLayout (hlayout.mem_iff.mpr hfound)
        (hexplicit found hfound) hfoundRun
    · exact formed_simplify fun b hb => hexplicit b (hlayout.mem_iff.mp hb)

/-- Placing the blocks of a function, and placing them once more, keeps its
    control flow. -/
theorem placeBlocks_preserves (fromEdges : List (List CfgEdge) → HotPathInfo) (func : LayoutFunc)
    (hforms : ∀ block ∈ func.blocks, block.Formed) :
    ∃ placed, placeBlocks fromEdges func.blocks = some placed ∧ Placement func.blocks placed ∧
      ∀ fromEdges', ∃ again, placeBlocks fromEdges' placed = some again ∧
        Placement func.blocks again := by
  obtain ⟨placed, hplaced, hfirst, hformed⟩ :=
    placeBlocks_placement fromEdges func.nodup hforms
  refine ⟨placed, hplaced, hfirst, fun fromEdges' => ?_⟩
  obtain ⟨again, hagain, hsecond, -⟩ :=
    placeBlocks_placement fromEdges' (hfirst.perm.nodup_iff.mpr func.nodup) hformed
  exact ⟨again, hagain, hfirst.trans hsecond⟩

/-- A loop on itself that falls through, a conditional over two jumps and an end
    in the middle. -/
def placementSample : LayoutFunc where
  blocks := [
    ⟨0, [{ opcode := .jcc, cond := some .e, target := some 1 }, jmp 3]⟩,
    ⟨1, [{ opcode := .testJnz, rn := some (.virtual 0 .gpr64), target := some 1 }]⟩,
    ⟨2, [{ opcode := .ret }]⟩,
    ⟨3, [{ opcode := .jcc, cond := some .l, target := some 2 }, jmp 0]⟩]
  nodup := by decide

theorem placeBlocks_preserves_sample :
    ∃ placed, placeBlocks (fun _ => ⟨id, fun _ b => b⟩) placementSample.blocks = some placed ∧
      Placement placementSample.blocks placed ∧
      ∀ fromEdges', ∃ again, placeBlocks fromEdges' placed = some again ∧
        Placement placementSample.blocks again := by
  apply placeBlocks_preserves
  intro block hblock
  simp only [placementSample, List.mem_cons, List.not_mem_nil, or_false] at hblock
  rcases hblock with rfl | rfl | rfl | rfl
  · exact ⟨[], some _, some _, rfl, by decide, by decide, by decide⟩
  · exact ⟨[], some _, none, rfl, by decide, by decide, by decide⟩
  · exact ⟨[], none, some _, rfl, by decide, by decide, by decide⟩
  · exact ⟨[], some _, some _, rfl, by decide, by decide, by decide⟩

end Crabbit.X86
