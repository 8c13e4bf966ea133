/-
  Crabbit.Nvptx.EmitSound

  Emission of a function finds every register it looks up.  A skipped operation
  has skipped users only and no plan reads it; a fused multiplication has one
  use, and the addition there looks up its factors instead.
-/

import Crabbit.Nvptx.AddrPlanSound
import Mathlib.Algebra.Order.BigOperators.Group.List
import Mathlib.Data.List.Flatten

namespace Crabbit.Nvptx

open Crabbit.Lib
open Crabbit.Llvm (Value Ty GepIndex Successor)
open EmitFunc (Site skeletons)

/-! ## Positions -/

theorem exists_split_of_getElem? {α : Type} {xs : List α} {i : Nat} {x : α}
    (h : xs[i]? = some x) : ∃ before after, xs = before ++ x :: after ∧ before.length = i := by
  obtain ⟨hlt, rfl⟩ := List.getElem?_eq_some_iff.mp h
  refine ⟨xs.take i, xs.drop (i + 1), ?_, List.length_take_of_le (Nat.le_of_lt hlt)⟩
  rw [List.cons_getElem_drop_succ, List.take_append_drop]

/-- Two positions hold at most what the whole list holds. -/
theorem add_le_sum_of_ne {α : Type} {xs : List α} {c : α → Nat} {i j : Nat} {x y : α}
    (hi : xs[i]? = some x) (hj : xs[j]? = some y) (hne : i ≠ j) :
    c x + c y ≤ (xs.map c).sum := by
  have hlt : ∀ {i j : Nat} {x y : α}, xs[i]? = some x → xs[j]? = some y → i < j →
      c x + c y ≤ (xs.map c).sum := by
    intro i j x y hi hj hlt
    obtain ⟨before, after, rfl, rfl⟩ := exists_split_of_getElem? hi
    rw [List.getElem?_append_right (Nat.le_of_lt hlt),
      show j - before.length = (j - before.length - 1) + 1 by omega,
      List.getElem?_cons_succ] at hj
    have hy : c y ≤ (after.map c).sum :=
      List.le_sum_of_mem (List.mem_map_of_mem (List.mem_of_getElem? hj))
    rw [List.map_append, List.sum_append, List.map_cons, List.sum_cons]
    omega
  rcases Nat.lt_or_gt_of_ne hne with h | h
  · exact hlt hi hj h
  · rw [Nat.add_comm]
    exact hlt hj hi h

/-! ## Skipped operations -/

section Skip

variable {plans : Value → Option FoldedAddr} {ops : List EmitInst}

/-- An operation is skipped only if nothing reads its result: it may be skipped,
    and its users are. -/
theorem skipOps_spec {i : Nat} (h : i ∈ skipOps plans ops) :
    ∃ op result, ops[i]? = some op ∧ op.inst.results.head? = some result ∧
      skippable plans (pinned plans ops) op result = true ∧
      ∀ user ∈ usersOf plans ops result, user ∈ skipOps plans ops := by
  have hfold : ∀ (positions : List Nat), i ∈ positions.foldr (skipAt plans ops) [] →
      ∃ op result, ops[i]? = some op ∧ op.inst.results.head? = some result ∧
        skippable plans (pinned plans ops) op result = true ∧
        ∀ user ∈ usersOf plans ops result, user ∈ positions.foldr (skipAt plans ops) [] := by
    intro positions
    induction positions with
    | nil => exact fun h => absurd h List.not_mem_nil
    | cons p rest ih =>
      rw [List.foldr_cons]
      intro hi
      -- Skipping one more operation keeps the skipped users.
      have hgrow : ∀ j ∈ rest.foldr (skipAt plans ops) [],
          j ∈ skipAt plans ops p (rest.foldr (skipAt plans ops) []) := by
        intro j hj
        rw [skipAt]
        split
        · split
          · exact List.mem_cons_of_mem _ hj
          · exact hj
        · exact hj
      have hrest : i ∈ rest.foldr (skipAt plans ops) [] →
          ∃ op result, ops[i]? = some op ∧ op.inst.results.head? = some result ∧
            skippable plans (pinned plans ops) op result = true ∧
            ∀ user ∈ usersOf plans ops result,
              user ∈ skipAt plans ops p (rest.foldr (skipAt plans ops) []) := by
        intro hmem
        obtain ⟨op, result, hop, hresult, hskip, husers⟩ := ih hmem
        exact ⟨op, result, hop, hresult, hskip, fun user hu => hgrow user (husers user hu)⟩
      have hmem := hi
      rw [skipAt] at hmem
      split at hmem
      · rename_i op result heq
        split at hmem
        · rename_i hcond
          rcases List.mem_cons.mp hmem with rfl | hmem
          · obtain ⟨op', hop', hhead⟩ := Option.bind_eq_some_iff.mp heq
            obtain ⟨result', hresult', hpair⟩ := Option.map_eq_some_iff.mp hhead
            cases hpair
            exact ⟨op, result, hop', hresult', hcond.1, fun user hu => hgrow user (hcond.2 user hu)⟩
          · exact hrest hmem
        · exact hrest hmem
      · exact hrest hmem
  exact hfold _ h

theorem mem_usersOf {i : Nat} {op : EmitInst} (hop : ops[i]? = some op) {v : Value}
    (hv : v ∈ op.inst.operands) (hexempt : exempt plans op.inst ≠ some v) :
    i ∈ usersOf plans ops v := by
  obtain ⟨hlt, -⟩ := List.getElem?_eq_some_iff.mp hop
  rw [usersOf, List.mem_filter, List.mem_range, hop]
  exact ⟨hlt, decide_eq_true ⟨hv, hexempt⟩⟩

theorem mem_pinned {op : EmitInst} (hop : op ∈ ops) {r : Value} (hr : r ∈ op.inst.results)
    {plan : FoldedAddr} (hplan : plans r = some plan) {v : Value} (hv : v ∈ plan.reads) :
    v ∈ pinned plans ops := by
  refine List.mem_flatMap.mpr ⟨op, hop, List.mem_flatMap.mpr ⟨r, hr, ?_⟩⟩
  rw [hplan]
  exact hv

/-- What may be skipped is a folded `getelementptr` or has the kind of a pure
    integer operation. -/
theorem skippable_cases {pins : List Value} {op : EmitInst} {result : Value}
    (h : skippable plans pins op result = true) :
    (isGep op.inst = true ∧ (plans result).isSome = true) ∨
      (op.isPureInt = true ∧ result ∉ pins) := by
  rw [skippable, Bool.or_eq_true, Bool.and_eq_true, Bool.and_eq_true, decide_eq_true_iff] at h
  exact h

/-- What may be skipped has one result. -/
theorem results_of_skippable {pins : List Value} {op : EmitInst} {result : Value}
    (h : skippable plans pins op result = true) (hhead : op.inst.results.head? = some result) :
    op.inst.results = [result] := by
  rcases skippable_cases h with ⟨hgep, -⟩ | ⟨hpure, -⟩
  · cases hop : op.inst <;> rw [hop] at hgep hhead <;> cases hgep
    cases hhead
    rfl
  · rw [EmitInst.isPureInt] at hpure
    split at hpure
    all_goals
      rename_i hop
      first
        | (rw [hop] at hhead ⊢; cases hhead; rfl)
        | cases hpure

end Skip

/-! ## Fused multiplications -/

section Contract

variable {f : EmitFunc} {ops : List EmitInst}

/-- What a contraction stands for: the only use of a product is in the
    addition. -/
structure Contraction.Valid (f : EmitFunc) (ops : List EmitInst) (c : Contraction)
    (addOp mulOp : EmitInst) (product : Value) : Prop where
  addAt : ops[c.add]? = some addOp
  addends : addOp.operandsOf .fadd = some (product, c.addend) ∨
    addOp.operandsOf .fadd = some (c.addend, product)
  mulAt : ops[c.mul]? = some mulOp
  factors : mulOp.operandsOf .fmul = some (c.a, c.b)
  result : mulOp.inst.results = [product]
  once : f.numUses product = 1

theorem operandsOf_eq {kind : OtherKind} {op : EmitInst} {lhs rhs : Value}
    (h : op.operandsOf kind = some (lhs, rhs)) :
    op.kind = kind ∧ ∃ result, op.inst = .other [result] [lhs, rhs] := by
  rw [EmitInst.operandsOf] at h
  split at h
  · rename_i result lhs' rhs' hop
    split at h
    · rename_i hkind
      cases h
      exact ⟨hkind, result, hop⟩
    · cases h
  · cases h

theorem fuse_valid {plan : List Contraction} {add : Nat} {op : EmitInst} {product addend : Value}
    {c : Contraction} (hop : ops[add]? = some op)
    (hoperands : op.operandsOf .fadd = some (product, addend) ∨
      op.operandsOf .fadd = some (addend, product))
    (h : fuse f ops plan add product addend = some c) :
    c.add = add ∧ ∃ mulOp, c.Valid f ops op mulOp product := by
  obtain ⟨mul, hmul, h⟩ := Option.bind_eq_some_iff.mp h
  split at h
  · rename_i hcond
    obtain ⟨factors, hfactors, rfl⟩ := Option.map_eq_some_iff.mp h
    obtain ⟨mulOp, hmulOp, hmulOperands⟩ := Option.bind_eq_some_iff.mp hfactors
    obtain ⟨-, result, hinst⟩ := operandsOf_eq hmulOperands
    have hres : product ∈ mulOp.inst.results := by
      obtain ⟨hlt, hmem, -⟩ := List.findIdx?_eq_some_iff_getElem.mp hmul
      obtain ⟨_, rfl⟩ := List.getElem?_eq_some_iff.mp hmulOp
      simpa using hmem
    rw [hinst] at hres
    refine ⟨rfl, mulOp, hop, hoperands, hmulOp, hmulOperands, ?_, hcond.1⟩
    rw [hinst, List.mem_singleton.mp hres]
    rfl
  · cases h

/-- The contractions so far: each is what it stands for, at additions before a
    position, of which none is contracted twice. -/
structure ContractsTo (f : EmitFunc) (ops : List EmitInst) (i : Nat) (plan : List Contraction) :
    Prop where
  valid : ∀ c ∈ plan, ∃ addOp mulOp product, c.Valid f ops addOp mulOp product
  before : ∀ c ∈ plan, c.add < i
  nodup : (plan.map Contraction.add).Nodup

theorem contractAt_ok {i : Nat} {op : EmitInst} (hop : ops[i]? = some op)
    {plan : List Contraction} (h : ContractsTo f ops i plan) :
    ContractsTo f ops (i + 1) (contractAt f ops plan i op) := by
  have hkeep : ContractsTo f ops (i + 1) plan :=
    ⟨h.valid, fun c hc => Nat.lt_succ_of_lt (h.before c hc), h.nodup⟩
  rw [contractAt]
  split
  · rename_i lhs rhs hoperands
    cases hfuse : (fuse f ops plan i lhs rhs).or (fuse f ops plan i rhs lhs) with
    | none =>
      rw [Option.toList_none, List.append_nil]
      exact hkeep
    | some c =>
      obtain ⟨hadd, mulOp, product, hvalid⟩ :
          c.add = i ∧ ∃ mulOp product, c.Valid f ops op mulOp product := by
        rcases Option.or_eq_some_iff.mp hfuse with hleft | ⟨-, hright⟩
        · obtain ⟨hadd, mulOp, hvalid⟩ := fuse_valid hop (.inl hoperands) hleft
          exact ⟨hadd, mulOp, lhs, hvalid⟩
        · obtain ⟨hadd, mulOp, hvalid⟩ := fuse_valid hop (.inr hoperands) hright
          exact ⟨hadd, mulOp, rhs, hvalid⟩
      refine ⟨fun c' hc' => ?_, fun c' hc' => ?_, ?_⟩
      · rcases List.mem_append.mp hc' with hc' | hc'
        · exact h.valid c' hc'
        · obtain rfl := List.mem_singleton.mp hc'
          exact ⟨op, mulOp, product, hvalid⟩
      · rcases List.mem_append.mp hc' with hc' | hc'
        · exact hkeep.before c' hc'
        · obtain rfl := List.mem_singleton.mp hc'
          omega
      · rw [List.map_append]
        refine List.nodup_append.mpr ⟨h.nodup, List.nodup_singleton _, fun j hj j' hj' => ?_⟩
        obtain ⟨c', hc', rfl⟩ := List.mem_map.mp hj
        have hlt := h.before c' hc'
        rw [List.mem_singleton.mp hj']
        change c'.add ≠ c.add
        omega
  · exact hkeep

theorem planFpContraction_ok (f : EmitFunc) (ops : List EmitInst) :
    ContractsTo f ops ops.length (planFpContraction f ops) := by
  have hrun : ∀ (rest before : List EmitInst) (plan : List Contraction), ops = before ++ rest →
      ContractsTo f ops before.length plan →
      ContractsTo f ops ops.length (contractFrom f ops before.length rest plan) := by
    intro rest
    induction rest with
    | nil =>
      intro before plan hops h
      rw [List.append_nil] at hops
      exact hops ▸ h
    | cons op rest ih =>
      intro before plan hops h
      have hop : ops[before.length]? = some op := by
        rw [hops, List.getElem?_append_right (Nat.le_refl _), Nat.sub_self]
        rfl
      have hnext := ih (before ++ [op]) (contractAt f ops plan before.length op)
        (by rw [hops, List.append_assoc]; rfl)
      rw [List.length_append, List.length_singleton] at hnext
      exact hnext (contractAt_ok hop h)
  exact hrun ops [] [] rfl ⟨fun _ h => absurd h List.not_mem_nil,
    fun _ h => absurd h List.not_mem_nil, List.nodup_nil⟩

/-- The visited operations have no more uses than the function. -/
theorem sum_count_le_numUses (f : EmitFunc) {order : List Nat} (hnodup : order.Nodup)
    (hlt : ∀ b ∈ order, b < f.blocks.length) (v : Value) :
    ((f.ops order).map fun op => op.inst.operands.count v).sum ≤ f.numUses v := by
  have hall : f.numUses v =
      ((f.ops (List.range f.blocks.length)).map fun op => op.inst.operands.count v).sum := by
    have hblocks : (List.range f.blocks.length).map f.block = f.blocks := by
      apply List.ext_getElem
      · rw [List.length_map, List.length_range]
      · intro i hi hi'
        rw [List.getElem_map, List.getElem_range, EmitFunc.block, List.getD_eq_getElem _ _ hi']
    have hops : f.ops (List.range f.blocks.length) = f.blocks.flatMap EmitBlock.insts := by
      conv_rhs => rw [← hblocks, List.flatMap_map]
      rfl
    rw [hops, EmitFunc.numUses, Kernel.insts, EmitFunc.kernel, List.flatMap_map, List.map_flatMap,
      List.map_flatMap]
    simp only [List.map_map]
    rfl
  rw [hall]
  obtain ⟨order', hperm, hsub⟩ := hnodup.subperm fun b hb => List.mem_range.mpr (hlt b hb)
  have hperm' : (f.ops order').Perm (f.ops order) := hperm.flatMap_right _
  rw [← (hperm'.map _).sum_eq]
  exact ((hsub.flatMap _).map _).sum_le_sum fun _ _ => Nat.zero_le _

end Contract

/-! ## What emission looks up -/

section Lookups

variable {f : EmitFunc} {order : List Nat} {plan : EmitPlan}

/-- The plan of a function over its visited operations. -/
structure EmitPlan.Ok (f : EmitFunc) (order : List Nat) (plan : EmitPlan) : Prop where
  plans : PlansOk f order plan.plans []
  skip : plan.skip = [] ∨ plan.skip = skipOps plan.plans (f.ops order)
  contractions : ContractsTo f (f.ops order) (f.ops order).length plan.contractions

theorem Site.getElem? {before after : List EmitInst} {op : EmitInst} {b : Nat}
    {done : List EmitInst} (h : Site f order before op after b done) :
    (f.ops order)[before.length]? = some op := by
  rw [h.ops, List.getElem?_append_right (Nat.le_refl _), Nat.sub_self]
  rfl

theorem exists_site_getElem? {i : Nat} {op : EmitInst} (h : (f.ops order)[i]? = some op) :
    ∃ before after b done, Site f order before op after b done ∧ before.length = i := by
  obtain ⟨before, after, hops, hlen⟩ := exists_split_of_getElem? h
  obtain ⟨b, done, hsite⟩ := EmitFunc.exists_site hops
  exact ⟨before, after, b, done, hsite, hlen⟩

section Emitted

variable (hssa : f.kernel.region.Ssa) (huses : f.kernel.region.UsesDominated)
  (horder : ReversePostOrder f.kernel.region.Edge 0 order) (hplan : plan.Ok f order)

include hssa in
theorem order_lt (horder : ReversePostOrder f.kernel.region.Edge 0 order)
    (hentry : 0 < f.blocks.length) : ∀ b ∈ order, b < f.blocks.length := by
  intro b hb
  obtain ⟨visited, hwalk⟩ := (horder.mem_iff b).mp hb
  cases hwalk with
  | entry => exact hentry
  | @step u _ _ _ he =>
    obtain ⟨op, hlast, hb⟩ : ∃ op ∈ (f.kernel.region.block u).ops, b ∈ op.succs.map Successor.dest := by
      rw [Llvm.Region.Edge, Llvm.Region.succs] at he
      split at he
      · rename_i op hop
        exact ⟨op, List.mem_of_getLast? hop, List.mem_eraseDups.mp he⟩
      · exact absurd he List.not_mem_nil
    obtain ⟨s, hs, rfl⟩ := List.mem_map.mp hb
    have hlt := hssa.target op (Llvm.Region.mem_ops_of_block hlast) s hs
    rw [Kernel.region, EmitFunc.kernel] at hlt
    simpa using hlt

include horder in
/-- The only use of a value is at one position. -/
theorem unique_use (hlt : ∀ b ∈ order, b < f.blocks.length) {v : Value}
    (hone : f.numUses v = 1) {i j : Nat} {op op' : EmitInst} (hi : (f.ops order)[i]? = some op)
    (hv : v ∈ op.inst.operands) (hj : (f.ops order)[j]? = some op') (hv' : v ∈ op'.inst.operands) :
    i = j := by
  by_contra hne
  have hsum := add_le_sum_of_ne (c := fun op => op.inst.operands.count v) hi hj hne
  have hle := sum_count_le_numUses f horder.nodup hlt v
  have h1 : 0 < op.inst.operands.count v := List.count_pos_iff.mpr hv
  have h2 : 0 < op'.inst.operands.count v := List.count_pos_iff.mpr hv'
  omega

theorem Contraction.Valid.operands {ops : List EmitInst} {c : Contraction}
    {addOp mulOp : EmitInst} {product : Value} (h : c.Valid f ops addOp mulOp product) :
    product ∈ addOp.inst.operands ∧ c.addend ∈ addOp.inst.operands ∧ c.a ∈ mulOp.inst.operands ∧
      c.b ∈ mulOp.inst.operands := by
  obtain ⟨-, mulResult, hmul⟩ := operandsOf_eq h.factors
  rw [hmul]
  refine ⟨?_, ?_, List.mem_cons_self, List.mem_cons_of_mem _ List.mem_cons_self⟩
  all_goals
    rcases h.addends with hadd | hadd <;> obtain ⟨-, addResult, hop⟩ := operandsOf_eq hadd <;>
      rw [hop] <;> simp [Inst.operands]

theorem Contraction.Valid.kinds {ops : List EmitInst} {c : Contraction}
    {addOp mulOp : EmitInst} {product : Value} (h : c.Valid f ops addOp mulOp product) :
    addOp.kind = .fadd ∧ mulOp.kind = .fmul ∧
      (∃ results operands, addOp.inst = .other results operands) ∧
      ∃ results operands, mulOp.inst = .other results operands := by
  obtain ⟨hmulKind, mulResult, hmul⟩ := operandsOf_eq h.factors
  rcases h.addends with hadd | hadd <;> obtain ⟨haddKind, addResult, hop⟩ := operandsOf_eq hadd
  all_goals exact ⟨haddKind, hmulKind, ⟨_, _, hop⟩, ⟨_, _, hmul⟩⟩

/-- How emission comes to look a value up: as an operand no plan replaces, as a
    value some plan reads, through a contraction, or as the target of a
    branch. -/
inductive LooksUp (f : EmitFunc) (order : List Nat) (plan : EmitPlan) (i : Nat) (op : EmitInst)
    (v : Value) : Prop where
  | operand (hv : v ∈ op.inst.operands) (hexempt : exempt plan.plans op.inst ≠ some v)
      (hfma : ∀ c ∈ plan.contractions, c.add = i →
        ∀ results operands, op.inst ≠ .other results operands)
  | planned (r : Value) (addr : FoldedAddr) (hr : r ∈ op.inst.operands ∨ r ∈ op.inst.results)
      (hplan : plan.plans r = some addr) (hv : v ∈ addr.reads)
  | fused (c : Contraction) (hc : c ∈ plan.contractions) (hadd : c.add = i)
      (hv : v ∈ [c.a, c.b, c.addend])
  | param (hv : v ∈ EmitPlan.branchParams f op.inst)

theorem looksUp_of_memOperand {i : Nat} {op : EmitInst} {addr v : Value}
    (hv : v ∈ plan.memOperand addr) (haddr : addr ∈ op.inst.operands)
    (hexempt : plan.plans addr = none → exempt plan.plans op.inst ≠ some addr)
    (hother : ∀ results operands, op.inst ≠ .other results operands) :
    LooksUp f order plan i op v := by
  rw [EmitPlan.memOperand] at hv
  cases hplan : plan.plans addr with
  | none =>
    rw [hplan] at hv
    obtain rfl := List.mem_singleton.mp hv
    exact .operand haddr (hexempt hplan) fun _ _ _ => hother
  | some found =>
    rw [hplan] at hv
    exact .planned addr found (.inl haddr) hplan hv

theorem looksUp_of_mem {i : Nat} {op : EmitInst} {v : Value}
    (hv : v ∈ plan.lookups f i op.inst) : LooksUp f order plan i op v := by
  obtain ⟨inst, kind⟩ := op
  cases inst with
  | constant | addressOf | alloca => exact absurd hv List.not_mem_nil
  | gep result base ty indices =>
    rw [EmitPlan.lookups] at hv
    cases hplan : plan.plans result with
    | none =>
      rw [hplan] at hv
      refine .operand hv ?_ fun _ _ _ _ _ h => by cases h
      simp [exempt, hplan]
    | some addr =>
      rw [hplan] at hv
      exact .planned result addr (.inr List.mem_cons_self) hplan hv
  | load result addr =>
    refine looksUp_of_memOperand hv List.mem_cons_self (fun h => ?_) fun _ _ h => by cases h
    simp [exempt, h]
  | store value addr =>
    rcases List.mem_cons.mp hv with rfl | hv
    · refine .operand List.mem_cons_self ?_ fun _ _ _ _ _ h => by cases h
      rw [exempt]
      split
      · rename_i h
        exact fun heq => h.2 (Option.some.inj heq)
      · exact fun heq => by cases heq
    · refine looksUp_of_memOperand hv (List.mem_cons_of_mem _ List.mem_cons_self) (fun h => ?_)
        fun _ _ h => by cases h
      simp [exempt, h]
  | other results operands =>
    rw [EmitPlan.lookups] at hv
    cases hfind : plan.contractions.find? (·.add = i) with
    | none =>
      rw [hfind] at hv
      refine .operand hv (by simp [exempt]) fun c hc hadd => ?_
      have hno := List.find?_eq_none.mp hfind c hc
      exact absurd (decide_eq_true hadd) hno
    | some c =>
      rw [hfind] at hv
      exact .fused c (List.mem_of_find?_eq_some hfind)
        (by simpa using List.find?_some hfind) hv
  | _ =>
    rcases List.mem_append.mp hv with hv | hv
    · exact .operand hv (by simp [exempt]) fun _ _ _ _ _ h => by cases h
    · exact .param hv

/-- The parameters a branch names are those of a block. -/
theorem exists_param {inst : Inst} {v : Value} (hv : v ∈ EmitPlan.branchParams f inst) :
    ∃ s ∈ inst.succs, v ∈ (f.block s.dest).params := List.mem_flatMap.mp hv

/-- A skipped operation has neither the kind of a cast nor of anything the
    emitter calls `other` for its sake. -/
theorem not_skipped {plans : Value → Option FoldedAddr} {ops : List EmitInst} {i : Nat}
    {op : EmitInst} (hop : ops[i]? = some op) (hgep : isGep op.inst = false)
    (hpure : op.isPureInt = false) : i ∉ skipOps plans ops := by
  intro hmem
  obtain ⟨op', result, hop', -, hskip, -⟩ := skipOps_spec hmem
  obtain rfl := Option.some.inj (hop.symm.trans hop')
  rcases skippable_cases hskip with ⟨h, -⟩ | ⟨h, -⟩
  · rw [hgep] at h
    cases h
  · rw [hpure] at h
    cases h

theorem not_skipped_other (plans : Value → Option FoldedAddr) {ops : List EmitInst} {i : Nat}
    {op : EmitInst} (hop : ops[i]? = some op) (hinst : ∃ results operands,
      op.inst = .other results operands) (hkind : op.kind = .fadd ∨ op.kind = .fmul) :
    i ∉ skipOps plans ops := by
  obtain ⟨results, operands, hinst⟩ := hinst
  refine not_skipped hop (by rw [hinst]; rfl) ?_
  rw [EmitInst.isPureInt, hinst]
  split
  · cases ‹Inst.other _ _ = _›
  · cases ‹Inst.other _ _ = _›
  · cases ‹Inst.other _ _ = _›
  · rcases hkind with hkind | hkind <;> rw [hkind] <;> rfl
  · rfl

include hssa hplan in
/-- What is looked up is not the result of a skipped operation. -/
theorem not_skipped_of_looksUp (htyped : f.Typed) {i j : Nat} {op op' : EmitInst}
    (hi : (f.ops order)[i]? = some op) (hemits : i ∉ plan.skip) {v : Value}
    (hv : LooksUp f order plan i op v) (hj : (f.ops order)[j]? = some op')
    (hres : v ∈ op'.inst.results) : j ∉ plan.skip := by
  rcases hplan.skip with hnone | hskips
  · rw [hnone]
    exact List.not_mem_nil
  rw [hskips] at hemits ⊢
  intro hmem
  obtain ⟨op'', result, hop'', hhead, hskip, husers⟩ := skipOps_spec hmem
  obtain rfl := Option.some.inj (hj.symm.trans hop'')
  rw [results_of_skippable hskip hhead, List.mem_singleton] at hres
  subst hres
  have hopmem : op' ∈ f.ops order := List.mem_of_getElem? hj
  have hresult : v ∈ op'.inst.results := by
    rw [results_of_skippable hskip hhead]
    exact List.mem_cons_self
  cases hv with
  | operand hop hexempt _ => exact hemits (husers i (mem_usersOf hi hop hexempt))
  | planned r addr _ haddr hread =>
    obtain ⟨before, opr, rest, b, done, hsite, hr, -, hground, hfree⟩ := hplan.plans r addr haddr
    rcases skippable_cases hskip with ⟨hgep, hfolded⟩ | ⟨-, hunpinned⟩
    · rcases List.mem_cons.mp hread with rfl | hterm
      · -- The root of a plan is no folded address, unless a cast reads it.
        rcases hfree with ⟨opc, hopc, kind, castResult, hcast⟩ | ⟨hnone, -⟩
        · obtain ⟨m, hm⟩ := List.mem_iff_getElem?.mp hopc
          have huser := husers m (mem_usersOf hm (by rw [hcast]; exact List.mem_cons_self)
            (by rw [hcast]; simp [exempt]))
          exact not_skipped hm (by rw [hcast]; rfl) (by rw [EmitInst.isPureInt, hcast]) huser
        · rw [hnone] at hfolded
          cases hfolded
      · obtain ⟨term, hmemTerm, rfl⟩ := List.mem_map.mp hterm
        have hint := hground.int term hmemTerm
        obtain ⟨_, _, _, _, hsite', -⟩ := exists_site_getElem? hj
        have hty := htyped _ hsite'.mem_insts
        cases hinst : op'.inst <;> rw [hinst] at hgep hty hresult <;> cases hgep
        rw [List.mem_singleton.mp hresult, hty.1] at hint
        cases hint
    · exact hunpinned (mem_pinned (Site.mem_ops hsite) hr haddr hread)
  | fused c hc hadd hv =>
    obtain ⟨addOp, mulOp, product, hvalid⟩ := hplan.contractions.valid c hc
    obtain ⟨-, haddend, ha, hb⟩ := hvalid.operands
    obtain ⟨haddKind, hmulKind, haddInst, hmulInst⟩ := hvalid.kinds
    have hexempt : ∀ {op : EmitInst}, (∃ results operands, op.inst = .other results operands) →
        exempt plan.plans op.inst ≠ some v := by
      rintro op ⟨results, operands, hinst⟩
      rw [hinst]
      simp [exempt]
    have hmul := not_skipped_other plan.plans hvalid.mulAt hmulInst (.inr hmulKind)
    have haddNot := not_skipped_other plan.plans hvalid.addAt haddInst (.inl haddKind)
    rcases List.mem_cons.mp hv with rfl | hv
    · exact hmul (husers _ (mem_usersOf hvalid.mulAt ha (hexempt hmulInst)))
    · rcases List.mem_cons.mp hv with rfl | hv
      · exact hmul (husers _ (mem_usersOf hvalid.mulAt hb (hexempt hmulInst)))
      · obtain rfl := List.mem_singleton.mp hv
        exact haddNot (husers _ (mem_usersOf hvalid.addAt haddend (hexempt haddInst)))
  | param hparam =>
    obtain ⟨s, -, hparam⟩ := exists_param hparam
    exact EmitFunc.param_not_result hssa order hparam
      (List.mem_flatMap.mpr ⟨op', hopmem, hresult⟩)

include hssa horder hplan in
/-- What is looked up is not the result of a fused multiplication. -/
theorem not_fused_of_looksUp (hlt : ∀ b ∈ order, b < f.blocks.length) {i j : Nat}
    {op op' : EmitInst} (hi : (f.ops order)[i]? = some op) {v : Value}
    (hv : LooksUp f order plan i op v) (hj : (f.ops order)[j]? = some op')
    (hres : v ∈ op'.inst.results) : j ∉ plan.contractions.map Contraction.mul := by
  intro hmem
  obtain ⟨c, hc, rfl⟩ := List.mem_map.mp hmem
  obtain ⟨addOp, mulOp, product, hvalid⟩ := hplan.contractions.valid c hc
  obtain rfl := Option.some.inj (hj.symm.trans hvalid.mulAt)
  have hproduct := hres
  rw [hvalid.result, List.mem_singleton] at hproduct
  subst hproduct
  obtain ⟨huse, -, -, -⟩ := hvalid.operands
  obtain ⟨haddKind, -, haddInst, -⟩ := hvalid.kinds
  have honly := fun (m : Nat) (o : EmitInst) (hm : (f.ops order)[m]? = some o)
    (hmem : v ∈ o.inst.operands) => unique_use horder hlt hvalid.once hm hmem hvalid.addAt huse
  cases hv with
  | operand hop _ hfma =>
    have heq := honly i op hi hop
    obtain ⟨results, operands, haddInst⟩ := haddInst
    obtain rfl : op = addOp := Option.some.inj (hi.symm.trans (heq ▸ hvalid.addAt))
    exact hfma c hc heq.symm results operands haddInst
  | planned r addr _ haddr hread =>
    obtain ⟨before, opr, rest, b, done, hsite, -, -, hground, -⟩ := hplan.plans r addr haddr
    obtain ⟨opn, hopn, hmem, hother⟩ := hground.named v hread
    obtain ⟨m, hm⟩ := List.mem_iff_getElem?.mp hopn
    have heq := honly m opn hm hmem
    obtain ⟨results, operands, haddInst⟩ := haddInst
    obtain rfl : opn = addOp := Option.some.inj (hm.symm.trans (heq ▸ hvalid.addAt))
    exact hother results operands haddInst
  | fused c' hc' hadd' hv =>
    obtain ⟨addOp', mulOp', product', hvalid'⟩ := hplan.contractions.valid c' hc'
    obtain ⟨-, haddend, ha, hb⟩ := hvalid'.operands
    have hfactor : v ∉ mulOp'.inst.operands := by
      intro hmem
      have heq := honly _ _ hvalid'.mulAt hmem
      obtain rfl : mulOp' = addOp :=
        Option.some.inj (hvalid'.mulAt.symm.trans (heq ▸ hvalid.addAt))
      have hkind := hvalid'.kinds.2.1
      rw [haddKind] at hkind
      cases hkind
    rcases List.mem_cons.mp hv with rfl | hv
    · exact hfactor ha
    · rcases List.mem_cons.mp hv with rfl | hv
      · exact hfactor hb
      · obtain rfl := List.mem_singleton.mp hv
        -- The product is not the addend as well: that would be a second use.
        have heq := honly _ _ hvalid'.addAt haddend
        obtain rfl : c' = c := List.inj_on_of_nodup_map hplan.contractions.nodup hc' hc heq
        have htwice : addOp.inst.operands.count c'.addend = 2 := by
          rcases hvalid.addends with hadd | hadd <;>
            obtain ⟨-, addResult, hop⟩ := operandsOf_eq hadd <;> rw [hop] <;>
            simp [Inst.operands]
        have hone : addOp.inst.operands.count c'.addend ≤
            ((f.ops order).map fun op => op.inst.operands.count c'.addend).sum :=
          List.le_sum_of_mem (List.mem_map_of_mem
            (f := fun op : EmitInst => op.inst.operands.count c'.addend)
            (List.mem_of_getElem? hvalid.addAt))
        have hle := sum_count_le_numUses f horder.nodup hlt c'.addend
        have honce := hvalid.once
        omega
  | param hparam =>
    obtain ⟨s, -, hparam⟩ := exists_param hparam
    exact EmitFunc.param_not_result hssa order hparam
      (List.mem_flatMap.mpr ⟨op', List.mem_of_getElem? hj, hres⟩)

include hssa horder hplan huses in
/-- What is looked up is available, or is a parameter a branch names. -/
theorem available_of_looksUp {before after : List EmitInst} {op : EmitInst} {b : Nat}
    {done : List EmitInst} (h : Site f order before op after b done) {v : Value}
    (hv : LooksUp f order plan before.length op v) :
    v ∈ EmitPlan.branchParams f op.inst ∨ f.kernel.region.Available b (skeletons done) v := by
  cases hv with
  | operand hop _ _ => exact .inr (available_operands huses horder h hop)
  | planned r addr hr haddr hread =>
    right
    obtain ⟨before', op', rest', b', done', hsite, hres, -, hground, -⟩ := hplan.plans r addr haddr
    have hv := hground.available v hread
    rcases hr with hr | hr
    · exact available_trans hssa horder h hsite hres hv (available_operands huses horder h hr)
    · -- The address computation itself.
      obtain ⟨rest, hsplit⟩ := h.split
      obtain ⟨rest', hsplit'⟩ := hsite.split
      obtain rfl := hssa.block_unique (Llvm.Region.mem_defs_of_result hsplit hr)
        (Llvm.Region.mem_defs_of_result hsplit' hres)
      obtain ⟨hdone, -, -⟩ := hssa.split_unique hsplit hsplit' hr hres
      rw [hdone]
      exact hv
  | fused c hc hadd hv =>
    right
    obtain ⟨addOp, mulOp, product, hvalid⟩ := hplan.contractions.valid c hc
    obtain ⟨hproduct, haddend, ha, hb⟩ := hvalid.operands
    obtain rfl : op = addOp :=
      Option.some.inj ((Site.getElem? h).symm.trans (hadd ▸ hvalid.addAt))
    obtain ⟨before', after', b', done', hsite, -⟩ := exists_site_getElem? hvalid.mulAt
    have hres : product ∈ mulOp.inst.results := by
      rw [hvalid.result]
      exact List.mem_cons_self
    have hfactor : ∀ w ∈ mulOp.inst.operands, f.kernel.region.Available b (skeletons done) w :=
      fun w hw => available_trans hssa horder h hsite hres
        (available_operands huses horder hsite hw) (available_operands huses horder h hproduct)
    rcases List.mem_cons.mp hv with rfl | hv
    · exact hfactor _ ha
    · rcases List.mem_cons.mp hv with rfl | hv
      · exact hfactor _ hb
      · rw [List.mem_singleton.mp hv]
        exact available_operands huses horder h haddend
  | param hparam => exact .inl hparam

include hssa horder in
/-- The blocks a branch names are visited. -/
theorem mem_order_of_branchParams {before after : List EmitInst} {op : EmitInst} {b : Nat}
    {done : List EmitInst} (h : Site f order before op after b done) {v : Value}
    (hv : v ∈ EmitPlan.branchParams f op.inst) :
    ∃ c ∈ order, v ∈ (f.block c).params := by
  obtain ⟨s, hs, hparam⟩ := exists_param hv
  obtain ⟨rest, hsplit⟩ := h.split
  have hedge := (hssa.edge hsplit (d := s) hs).2
  exact ⟨s.dest, (horder.mem_iff _).mpr ((h.reached horder).step hedge), hparam⟩

end Emitted

/-! ## Emission -/

/-- Where an emitted operation looks a value up: it is a parameter, or it was
    defined by an operation before, in a dominating position, and that one was
    emitted. -/
structure Found (f : EmitFunc) (order : List Nat) (plan : EmitPlan) (before : List EmitInst)
    (op : EmitInst) (b : Nat) (done : List EmitInst) (v : Value) : Prop where
  available : v ∈ EmitPlan.branchParams f op.inst ∨
    f.kernel.region.Available b (skeletons done) v
  defined : (∃ c ∈ order, v ∈ (f.block c).params) ∨
    ∃ op' ∈ before, v ∈ op'.inst.results
  emitted : ∀ j op', (f.ops order)[j]? = some op' → v ∈ op'.inst.results →
    j < before.length ∧ plan.Emits j

theorem found_of_lookup (hssa : f.kernel.region.Ssa) (huses : f.kernel.region.UsesDominated)
    (htyped : f.Typed) (horder : ReversePostOrder f.kernel.region.Edge 0 order)
    (hlt : ∀ b ∈ order, b < f.blocks.length) (hplan : plan.Ok f order)
    {before after : List EmitInst} {op : EmitInst} {b : Nat} {done : List EmitInst}
    (h : Site f order before op after b done) (hemits : plan.Emits before.length) {v : Value}
    (hv : v ∈ plan.lookups f before.length op.inst) : Found f order plan before op b done v := by
  have hlooks : LooksUp f order plan before.length op v := looksUp_of_mem hv
  have havail := available_of_looksUp hssa huses horder hplan h hlooks
  have hdefined : (∃ c ∈ order, v ∈ (f.block c).params) ∨
      v ∈ before.flatMap fun op => op.inst.results := by
    rcases havail with hparam | havail
    · exact .inl (mem_order_of_branchParams hssa horder h hparam)
    · exact h.available_visited horder havail
  refine ⟨havail, hdefined.imp_right List.mem_flatMap.mp, fun j op' hj hres => ⟨?_, ?_, ?_⟩⟩
  · rcases hdefined with ⟨c, -, hparam⟩ | hbefore
    · exact absurd (List.mem_flatMap.mpr ⟨op', List.mem_of_getElem? hj, hres⟩)
        (EmitFunc.param_not_result hssa order hparam)
    · by_contra hge
      have hnodup := EmitFunc.nodup_results hssa horder.nodup
      rw [h.ops, List.getElem?_append_right (Nat.le_of_not_lt hge)] at hj
      rw [h.ops, List.flatMap_append] at hnodup
      exact (List.nodup_append.mp hnodup).2.2 v hbefore v
        (List.mem_flatMap.mpr ⟨op', List.mem_of_getElem? hj, hres⟩) rfl
  · exact not_skipped_of_looksUp hssa hplan htyped (Site.getElem? h) hemits.1 hlooks hj hres
  · exact not_fused_of_looksUp hssa horder hplan hlt (Site.getElem? h) hlooks hj hres

/-- Emission goes through where every operation finds what it looks up. -/
theorem emit_ok (hfound : ∀ before op after b done, Site f order before op after b done →
      plan.Emits before.length → ∀ v ∈ plan.lookups f before.length op.inst,
        Found f order plan before op b done v) :
    ∃ defined, plan.emit f order = .ok defined := by
  have hrun : ∀ (after before : List EmitInst) (defined : List Value),
      f.ops order = before ++ after →
      (∀ c ∈ order, ∀ v ∈ (f.block c).params, v ∈ defined) →
      (∀ j op', (f.ops order)[j]? = some op' → j < before.length → plan.Emits j →
        ∀ v ∈ op'.inst.results, v ∈ defined) →
      ∃ defined', plan.emitFrom f before.length after defined = .ok defined' := by
    intro after
    induction after with
    | nil => exact fun before defined _ _ _ => ⟨defined, rfl⟩
    | cons op after ih =>
      intro before defined hops hparams hresults
      obtain ⟨b, done, hsite⟩ := EmitFunc.exists_site hops
      have hlen : (before ++ [op]).length = before.length + 1 := by
        rw [List.length_append, List.length_singleton]
      have hnext : f.ops order = (before ++ [op]) ++ after := by
        rw [hops, List.append_assoc]
        rfl
      rw [EmitPlan.emitFrom, EmitPlan.emitOp]
      split
      · rename_i hemits
        have hnone : (plan.lookups f before.length op.inst).find? (· ∉ defined) = none := by
          apply List.find?_eq_none.mpr
          intro v hv
          rw [decide_eq_true_iff, not_not]
          obtain ⟨-, hdefined, hemitted⟩ := hfound _ _ _ _ _ hsite hemits v hv
          rcases hdefined with ⟨c, hc, hparam⟩ | ⟨op', hop', hres⟩
          · exact hparams c hc v hparam
          · obtain ⟨j, hj⟩ := List.mem_iff_getElem?.mp hop'
            have hlt := (List.getElem?_eq_some_iff.mp hj).1
            have hj' : (f.ops order)[j]? = some op' := by
              rw [hops, List.getElem?_append_left hlt, hj]
            exact hresults j op' hj' hlt (hemitted j op' hj' hres).2 v hres
        rw [hnone]
        change ∃ defined', plan.emitFrom f (before.length + 1) after _ = .ok defined'
        rw [← hlen]
        refine ih (before ++ [op]) _ hnext (fun c hc v hv => List.mem_append_left _
          (hparams c hc v hv)) fun j op' hj hlt hem v hv => ?_
        rw [hlen] at hlt
        rcases Nat.lt_succ_iff_lt_or_eq.mp hlt with hlt | rfl
        · exact List.mem_append_left _ (hresults j op' hj hlt hem v hv)
        · rw [Site.getElem? hsite] at hj
          obtain rfl := Option.some.inj hj
          exact List.mem_append_right _ hv
      · rename_i hskipped
        change ∃ defined', plan.emitFrom f (before.length + 1) after defined = .ok defined'
        rw [← hlen]
        refine ih (before ++ [op]) _ hnext hparams fun j op' hj hlt hem v hv => ?_
        rw [hlen] at hlt
        rcases Nat.lt_succ_iff_lt_or_eq.mp hlt with hlt | rfl
        · exact hresults j op' hj hlt hem v hv
        · exact absurd hem hskipped
  exact hrun (f.ops order) [] _ rfl
    (fun c hc v hv => List.mem_flatMap.mpr ⟨c, hc, hv⟩)
    fun j op' _ hlt => absurd hlt (Nat.not_lt_zero j)

theorem emitPlan_ok (hssa : f.kernel.region.Ssa) (huses : f.kernel.region.UsesDominated)
    (htyped : f.Typed) (horder : ReversePostOrder f.kernel.region.Edge 0 order)
    (spaces : Value → Option PtrSpace) (addrFold : Bool) :
    (emitPlan f spaces addrFold (f.ops order)).Ok f order := by
  cases addrFold with
  | false =>
    exact ⟨(fun r plan hr => by cases hr), .inl rfl, planFpContraction_ok f (f.ops order)⟩
  | true =>
    exact ⟨foldPlans_ok hssa huses htyped horder spaces, .inr rfl,
      planFpContraction_ok f (f.ops order)⟩

/-- The plan of a function strands no value.  Emission over the visiting order
    finds every register it looks up, in whatever block: each is a parameter or
    the result of an operation that was emitted before, in a dominating
    position. -/
theorem emitPlan_strands_nothing (f : EmitFunc) (spaces : Value → Option PtrSpace)
    (addrFold : Bool) (hentry : 0 < f.blocks.length) (hssa : f.kernel.region.Ssa)
    (huses : f.kernel.region.UsesDominated) (htyped : f.Typed) :
    ∃ order, (∀ fuel > f.searchSteps, f.entryReversePostOrder fuel = some order) ∧
      (∃ defined, (emitPlan f spaces addrFold (f.ops order)).emit f order = .ok defined) ∧
      ∀ before op after b done, Site f order before op after b done →
        (emitPlan f spaces addrFold (f.ops order)).Emits before.length →
        ∀ v ∈ (emitPlan f spaces addrFold (f.ops order)).lookups f before.length op.inst,
          Found f order (emitPlan f spaces addrFold (f.ops order)) before op b done v := by
  have hsuccs : ∀ b ∈ List.range f.blocks.length, ∀ s ∈ f.succs b,
      s ∈ List.range f.blocks.length := by
    intro b _ s hs
    rw [EmitFunc.succs] at hs
    split at hs
    · rename_i op hop
      obtain ⟨target, htarget, rfl⟩ := List.mem_map.mp hs
      have hmem : op.inst.skeleton ∈ f.kernel.region.ops := by
        rw [Kernel.region_ops]
        exact List.mem_map_of_mem (EmitFunc.mem_insts_of_block (List.mem_of_getLast? hop))
      have hlt := hssa.target _ hmem target htarget
      rw [Kernel.region, EmitFunc.kernel] at hlt
      exact List.mem_range.mpr (by simpa using hlt)
    · exact absurd hs List.not_mem_nil
  obtain ⟨order, hrun, hrpo⟩ := exists_reversePostOrder List.nodup_range hsuccs
    (List.mem_range.mpr hentry)
  have hedge : (fun b d => d ∈ f.succs b) = f.kernel.region.Edge :=
    funext fun b => funext fun d => propext f.edge_iff
  rw [hedge] at hrpo
  have hfound := fun before op after b done (h : Site f order before op after b done) hemits v hv =>
    found_of_lookup (v := v) hssa huses htyped hrpo (order_lt hssa hrpo hentry)
      (emitPlan_ok hssa huses htyped hrpo spaces addrFold) h hemits hv
  exact ⟨order, hrun, emit_ok hfound, hfound⟩

end Lookups

/-- A kernel that sums `x * x + x` over one address in a loop.  The index of the
    address is computed in the entry block, and only the folded address needs
    it. -/
def loopFunc : EmitFunc where
  blocks := [
    { params := [⟨0, .pointer⟩, ⟨1, .i 64⟩, ⟨2, .i 1⟩]
      insts := [
        ⟨.constant ⟨3, .i 64⟩ 16, .unlisted⟩,
        ⟨.bin .add ⟨4, .i 64⟩ ⟨1, .i 64⟩ ⟨3, .i 64⟩, .unlisted⟩,
        ⟨.gep ⟨5, .pointer⟩ ⟨0, .pointer⟩ (.i 32) [.value ⟨4, .i 64⟩], .unlisted⟩,
        ⟨.br ⟨1, []⟩, .unlisted⟩] },
    { params := []
      insts := [
        ⟨.load ⟨6, .fp32⟩ ⟨5, .pointer⟩, .unlisted⟩,
        ⟨.other [⟨7, .fp32⟩] [⟨6, .fp32⟩, ⟨6, .fp32⟩], .fmul⟩,
        ⟨.other [⟨8, .fp32⟩] [⟨7, .fp32⟩, ⟨6, .fp32⟩], .fadd⟩,
        ⟨.store ⟨8, .fp32⟩ ⟨5, .pointer⟩, .unlisted⟩,
        ⟨.condBr ⟨2, .i 1⟩ ⟨1, []⟩ ⟨2, []⟩, .unlisted⟩] },
    { params := [], insts := [⟨.other [] [], .unlisted⟩] }]
  globals := fun _ => none
  paramsGlobal := true

example : let plan := emitPlan loopFunc (fun _ => none) true (loopFunc.ops [0, 1, 2])
    plan.skip = [1, 2] ∧ plan.contractions.map Contraction.mul = [5] := by decide

/-- Neither the sum, nor the address, nor the product gets a register, and none
    is missed. -/
theorem emitPlan_strands_nothing_loop :
    ∃ order, (∀ fuel > loopFunc.searchSteps,
        loopFunc.entryReversePostOrder fuel = some order) ∧
      (∃ defined, (emitPlan loopFunc (fun _ => none) true (loopFunc.ops order)).emit loopFunc order =
        .ok defined) ∧
      ∀ before op after b done, Site loopFunc order before op after b done →
        (emitPlan loopFunc (fun _ => none) true (loopFunc.ops order)).Emits before.length →
        ∀ v ∈ (emitPlan loopFunc (fun _ => none) true (loopFunc.ops order)).lookups loopFunc
            before.length op.inst,
          Found loopFunc order (emitPlan loopFunc (fun _ => none) true (loopFunc.ops order)) before op
            b done v :=
  emitPlan_strands_nothing loopFunc (fun _ => none) true (by decide) (by decide)
    (Llvm.Region.usesDominated_of_entry (by decide)) (by decide)

end Crabbit.Nvptx
