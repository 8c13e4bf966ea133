/-
  Crabbit.Nvptx.AddrPlanSound

  The address plan of a function strands no value: whatever emission looks up
  was emitted before.  What a plan reads is found by following operands from
  the operands of its `getelementptr`, so it is available wherever the folded
  address is; and an operation is skipped only with everything that uses it.
-/

import Crabbit.Nvptx.AddrFoldSound
import Crabbit.Nvptx.AddrPlan
import Mathlib.Data.List.Nodup
import Mathlib.Data.List.Perm.Subperm

namespace Crabbit.Nvptx

open Crabbit.Lib
open Crabbit.Llvm (Value Ty GepIndex Successor)

/-! ## What folding reads -/

/-- A property of values that integer operations hand on to their operands. -/
structure PeelClosed (k : Kernel) (P : Value → Prop) : Prop where
  bin : ∀ v kind r a b, definingOp k v = some (.bin kind r a b) → P v → P a ∧ P b
  zext : ∀ v r a, definingOp k v = some (.zext r a) → P v → P a

/-- Every term so far has the property. -/
def Spine.All (P : Value → Prop) (s : Spine) : Prop := ∀ term ∈ s.terms, P term.value

section Fold

variable {k : Kernel} {P : Value → Prop}

theorem Spine.All.push {s : Spine} (h : s.All P) {v : Value} (hv : P v) (scale : BitVec 64)
    (kind : TermKind) : (s.push v scale kind).All P := by
  intro term hterm
  rcases List.mem_append.mp hterm with hterm | hterm
  · exact h term hterm
  · exact List.mem_singleton.mp hterm ▸ hv

theorem Spine.All.memo {s : Spine} (h : s.All P) (memo : RangeMemo) :
    Spine.All P { s with memo } := h

/-- The values a 32-bit value is split into. -/
def Split.All (P : Value → Prop) : Split → Prop
  | .opaqueTerm => True
  | .sum a b => P a ∧ P b
  | .scaled other _ => P other

/-- The value the spine goes on with. -/
def Peel.All (P : Value → Prop) : Peel → Prop
  | .stop => True
  | .plus rest _ | .times rest _ => P rest
  | .zext32 inner | .narrow inner => P inner

theorem splitRule_all (hclosed : PeelClosed k P) {v : Value} (hv : P v) :
    (splitRule k v).All P := by
  unfold splitRule
  split
  · rename_i hdef
    exact hclosed.bin _ _ _ _ _ hdef hv
  · rename_i hdef
    have hab := hclosed.bin _ _ _ _ _ hdef hv
    split
    · exact hab.1
    · exact hab.2
    · exact trivial
  · rename_i hdef
    have hab := hclosed.bin _ _ _ _ _ hdef hv
    split
    · split
      · exact trivial
      · exact hab.1
    · exact trivial
  · exact trivial

theorem peelRule_all (hclosed : PeelClosed k P) {v : Value} (hv : P v) :
    (peelRule k v).All P := by
  have hbin : ∀ {kind r a b}, definingOp k v = some (.bin kind r a b) → P a ∧ P b :=
    fun hdef => hclosed.bin _ _ _ _ _ hdef hv
  unfold peelRule
  split
  · rename_i hdef
    split
    · exact (hbin hdef).1
    · exact (hbin hdef).2
    · exact trivial
  · rename_i hdef
    split
    · exact (hbin hdef).1
    · exact trivial
  · rename_i hdef
    split
    · exact (hbin hdef).1
    · exact (hbin hdef).2
    · exact trivial
  · rename_i hdef
    split
    · split
      · exact (hbin hdef).1
      · exact trivial
    · exact trivial
  · rename_i hdef
    have hinner := hclosed.zext _ _ _ hdef hv
    split
    · split
      · exact trivial
      · split
        · exact hinner
        · exact hinner
    · exact trivial
  · exact trivial

theorem decomposeZext32_all (hclosed : PeelClosed k P) (depth : Nat) (v : Value)
    (scale : BitVec 64) (s : Spine) (hs : s.All P) (hv : P v) :
    (decomposeZext32 k depth v scale s).2.All P := by
  induction depth generalizing v scale s with
  | zero =>
    unfold decomposeZext32
    split
    · exact hs
    · split
      · exact hs
      · exact hs.push hv _ _
  | succ depth ih =>
    unfold decomposeZext32
    split
    · exact hs
    · split
      · exact hs
      · have hsplit := splitRule_all hclosed hv
        cases hrule : splitRule k v with
        | opaqueTerm => exact hs.push hv _ _
        | sum a b =>
          rw [hrule] at hsplit
          simp only
          split
          · split
            · exact (hs.memo _).push hv _ _
            · exact ih _ _ _ (ih _ _ _ (hs.memo _) hsplit.1) hsplit.2
          · exact (hs.memo _).push hv _ _
        | scaled other factor =>
          rw [hrule] at hsplit
          simp only
          split
          · split
            · exact (hs.memo _).push hv _ _
            · exact ih _ _ _ (hs.memo _) hsplit
          · exact (hs.memo _).push hv _ _

theorem peel64_all (hclosed : PeelClosed k P) (fuel : Nat) (v : Value) (scale : BitVec 64)
    (s : Spine) (hs : s.All P) (hv : P v) : (peel64 k fuel v scale s).2.All P := by
  induction fuel generalizing v scale s with
  | zero => exact hs.push hv _ _
  | succ fuel ih =>
    unfold peel64
    split
    · exact hs
    · split
      · exact hs
      · have hpeel := peelRule_all hclosed hv
        cases hrule : peelRule k v with
        | stop => exact hs.push hv _ _
        | plus rest addend =>
          rw [hrule] at hpeel
          exact ih rest scale s hs hpeel
        | times rest factor =>
          rw [hrule] at hpeel
          exact ih rest _ s hs hpeel
        | zext32 inner =>
          rw [hrule] at hpeel
          exact decomposeZext32_all hclosed _ _ _ _ hs hpeel
        | narrow inner =>
          rw [hrule] at hpeel
          exact hs.push hpeel _ _

theorem foldStride_all (hclosed : PeelClosed k P) (stride : Nat) (index : GepIndex) (s : Folder)
    (hs : s.spine.All P) (hindex : ∀ v ∈ index.operands, P v) :
    (foldStride k stride index s).2.spine.All P := by
  cases index with
  | constant c => exact hs
  | value v =>
    have hv : P v := hindex v (List.mem_singleton.mpr rfl)
    rw [foldStride]
    split
    · exact hs
    · exact hs
    · split
      · exact peel64_all hclosed _ _ _ _ hs hv
      · split
        · exact hs.push hv _ _
        · exact hs

theorem foldDescend_all (hclosed : PeelClosed k P) (indices : List GepIndex) (ty : Ty) (s : Folder)
    (hs : s.spine.All P) (hindices : ∀ v ∈ indices.flatMap GepIndex.operands, P v) :
    (foldDescend k ty indices s).2.spine.All P := by
  induction indices generalizing ty s with
  | nil =>
    cases ty <;> exact hs
  | cons index rest ih =>
    rw [List.flatMap_cons] at hindices
    have hindex : ∀ v ∈ index.operands, P v := fun v hv =>
      hindices v (List.mem_append_left _ hv)
    have hrest : ∀ v ∈ rest.flatMap GepIndex.operands, P v := fun v hv =>
      hindices v (List.mem_append_right _ hv)
    unfold foldDescend
    split
    · exact hs
    · rename_i heq
      cases heq
      split
      · rw [andThen]
        split
        · exact ih _ _ (foldStride_all hclosed _ _ _ hs hindex) hrest
        · exact foldStride_all hclosed _ _ _ hs hindex
      · exact hs
    · rename_i heq
      cases heq
      split
      · exact ih _ _ hs hrest
      · exact hs
    · exact hs

theorem foldIndices_all (hclosed : PeelClosed k P) (indices : List GepIndex) (ty : Ty) (s : Folder)
    (hs : s.spine.All P) (hindices : ∀ v ∈ indices.flatMap GepIndex.operands, P v) :
    (foldIndices k ty indices s).2.spine.All P := by
  cases indices with
  | nil => exact hs
  | cons index rest =>
    rw [List.flatMap_cons] at hindices
    rw [foldIndices]
    split
    · rename_i stride _
      have hstride := foldStride_all hclosed stride index s hs fun v hv =>
        hindices v (List.mem_append_left _ hv)
      rw [andThen]
      split
      · exact foldDescend_all hclosed _ _ _ hstride fun v hv =>
          hindices v (List.mem_append_right _ hv)
      · exact hstride
    · exact hs

/-- Merging terms makes none of other values. -/
theorem mergeTerms_all {terms : List Term} (h : ∀ term ∈ terms, P term.value) :
    ∀ term ∈ mergeTerms terms, P term.value := by
  have hmerge : ∀ (merged : List Term) (term : Term), (∀ m ∈ merged, P m.value) → P term.value →
      ∀ m ∈ mergeTerm merged term, P m.value := by
    intro merged term hmerged hterm
    induction merged with
    | nil => exact fun m hm => List.mem_singleton.mp hm ▸ hterm
    | cons head rest ih =>
      obtain ⟨hhead, hrest⟩ := List.forall_mem_cons.mp hmerged
      rw [mergeTerm]
      split
      · exact List.forall_mem_cons.mpr ⟨hhead, hrest⟩
      · exact List.forall_mem_cons.mpr ⟨hhead, ih hrest⟩
  have hfold : ∀ (terms merged : List Term), (∀ m ∈ merged, P m.value) →
      (∀ term ∈ terms, P term.value) →
      ∀ m ∈ terms.foldl (fun merged term =>
        if term.scale = 0 then merged else mergeTerm merged term) merged, P m.value := by
    intro terms
    induction terms with
    | nil => exact fun merged hmerged _ => hmerged
    | cons term rest ih =>
      intro merged hmerged hterms
      obtain ⟨hterm, hrest⟩ := List.forall_mem_cons.mp hterms
      rw [List.foldl_cons]
      refine ih _ ?_ hrest
      split
      · exact hmerged
      · exact hmerge merged term hmerged hterm
  exact fun term hterm => hfold terms [] (fun _ hm => absurd hm List.not_mem_nil) h term
    (List.mem_of_mem_filter hterm)

end Fold

/-! ## Visited operations -/

namespace EmitFunc

variable {f : EmitFunc}

/-- Operations as the control-flow lemmas see them. -/
def skeletons (insts : List EmitInst) : List Llvm.Op := insts.map fun op => op.inst.skeleton

theorem mem_skeletons_results {insts : List EmitInst} {v : Value} :
    v ∈ (skeletons insts).flatMap Llvm.Op.results ↔ v ∈ insts.flatMap fun op => op.inst.results := by
  rw [skeletons, List.flatMap_map]
  rfl

theorem kernel_block (f : EmitFunc) (b : Nat) :
    f.kernel.block b = ⟨(f.block b).params, (f.block b).insts.map EmitInst.inst⟩ := by
  unfold kernel Kernel.block block
  rw [List.getD_eq_getElem?_getD, List.getElem?_map, List.getD_eq_getElem?_getD]
  cases f.blocks[b]? <;> rfl

theorem region_block (f : EmitFunc) (b : Nat) :
    f.kernel.region.block b = ⟨(f.block b).params, skeletons (f.block b).insts⟩ := by
  rw [Kernel.region_block, kernel_block, List.map_map]
  rfl

theorem edge_iff (f : EmitFunc) {b d : Nat} : d ∈ f.succs b ↔ f.kernel.region.Edge b d := by
  rw [Llvm.Region.Edge, Llvm.Region.succs, region_block, succs, skeletons, List.getLast?_map]
  cases (f.block b).insts.getLast? with
  | none => rfl
  | some op => exact List.mem_eraseDups.symm

theorem ops_cons (f : EmitFunc) (b : Nat) (order : List Nat) :
    f.ops (b :: order) = (f.block b).insts ++ f.ops order := rfl

theorem mem_insts_of_block {b : Nat} {op : EmitInst} (h : op ∈ (f.block b).insts) :
    op.inst ∈ f.kernel.insts := by
  apply Kernel.mem_insts_of_block (b := b)
  rw [kernel_block]
  exact List.mem_map_of_mem h

/-- Where a visited operation stands: `before` and `after` it in the visiting
    order, and behind `done` in its block. -/
structure Site (f : EmitFunc) (order : List Nat) (before : List EmitInst) (op : EmitInst)
    (after : List EmitInst) (b : Nat) (done : List EmitInst) : Prop where
  ops : f.ops order = before ++ op :: after
  insts : ∃ rest, (f.block b).insts = done ++ op :: rest
  order : ∃ o o', order = o ++ b :: o' ∧ before = f.ops o ++ done

theorem exists_site {order : List Nat} {before after : List EmitInst} {op : EmitInst}
    (h : f.ops order = before ++ op :: after) :
    ∃ b done, Site f order before op after b done := by
  induction order generalizing before with
  | nil => exact absurd h.symm (List.append_ne_nil_of_right_ne_nil _ (List.cons_ne_nil _ _))
  | cons c order ih =>
    rw [ops_cons, List.append_eq_append_iff] at h
    rcases h with ⟨mid, rfl, h⟩ | ⟨mid, hc, h⟩
    · obtain ⟨b, done, hsite⟩ := ih h
      obtain ⟨o, o', rfl, rfl⟩ := hsite.order
      refine ⟨b, done, ?_, hsite.insts, c :: o, o', rfl, ?_⟩
      · simp only [ops_cons, h, List.append_assoc]
      · rw [ops_cons, List.append_assoc]
    · cases mid with
      | nil =>
        rw [List.append_nil] at hc
        have hnext : f.ops order = [] ++ op :: after := h.symm
        obtain ⟨b, done, hsite⟩ := ih hnext
        obtain ⟨o, o', rfl, hbefore⟩ := hsite.order
        refine ⟨b, done, ?_, hsite.insts, c :: o, o', rfl, ?_⟩
        · rw [ops_cons, hc]
          exact congrArg (before ++ ·) h.symm
        · rw [ops_cons, List.append_assoc, ← hbefore, hc, List.append_nil]
      | cons first mid =>
        obtain ⟨rfl, rfl⟩ := List.cons.inj h
        refine ⟨c, before, ?_, ⟨mid, hc⟩, [], order, rfl, rfl⟩
        rw [ops_cons, hc, List.append_assoc]
        rfl

namespace Site

variable {order : List Nat} {before after : List EmitInst} {op : EmitInst} {b : Nat}
  {done : List EmitInst}

theorem visited (h : Site f order before op after b done) : b ∈ order := by
  obtain ⟨o, o', rfl, -⟩ := h.order
  exact List.mem_append_right _ List.mem_cons_self

theorem split (h : Site f order before op after b done) :
    ∃ rest, (f.kernel.region.block b).ops = skeletons done ++ op.inst.skeleton :: rest := by
  obtain ⟨rest, hinsts⟩ := h.insts
  rw [region_block, hinsts]
  exact ⟨skeletons rest, List.map_append⟩

theorem mem_insts (h : Site f order before op after b done) : op.inst ∈ f.kernel.insts := by
  obtain ⟨rest, hinsts⟩ := h.insts
  apply mem_insts_of_block (b := b)
  rw [hinsts]
  exact List.mem_append_right _ List.mem_cons_self

theorem reached (h : Site f order before op after b done)
    (horder : ReversePostOrder f.kernel.region.Edge 0 order) : f.kernel.region.Reached b :=
  (horder.mem_iff b).mp h.visited

/-- What is available at an operation is a parameter or was defined before. -/
theorem available_visited (h : Site f order before op after b done)
    (horder : ReversePostOrder f.kernel.region.Edge 0 order) {v : Value}
    (hv : f.kernel.region.Available b (skeletons done) v) :
    (∃ c ∈ order, v ∈ (f.block c).params) ∨ v ∈ before.flatMap fun op => op.inst.results := by
  have hreached := h.reached horder
  obtain ⟨o, o', rfl, rfl⟩ := h.order
  rcases hv with hv | hv | ⟨a, hne, hdom, hv⟩
  · rw [region_block] at hv
    exact .inl ⟨b, List.mem_append_right _ List.mem_cons_self, hv⟩
  · right
    rw [List.flatMap_append]
    exact List.mem_append_right _ (mem_skeletons_results.mp hv)
  · have hamem := (horder.mem_iff a).mpr (hdom.reaches hreached)
    have hao : a ∈ o := by
      rcases List.mem_append.mp hamem with hmem | hmem
      · exact hmem
      · rcases List.mem_cons.mp hmem with heq | hmem
        · exact absurd heq hne
        · have hrest := (List.pairwise_append.mp horder.dominators).2.1
          exact absurd hdom ((List.pairwise_cons.mp hrest).1 _ hmem)
    rw [region_block] at hv
    rcases List.mem_append.mp hv with hv | hv
    · exact .inl ⟨a, hamem, hv⟩
    · right
      rw [List.flatMap_append]
      apply List.mem_append_left
      obtain ⟨op', hop', hv⟩ := List.mem_flatMap.mp (mem_skeletons_results.mp hv)
      exact List.mem_flatMap.mpr ⟨op', List.mem_flatMap.mpr ⟨a, hao, hop'⟩, hv⟩

end Site

/-- A value is defined once among the visited operations. -/
theorem nodup_results (hssa : f.kernel.region.Ssa) {order : List Nat} (hnodup : order.Nodup) :
    ((f.ops order).flatMap fun op => op.inst.results).Nodup := by
  have hmem : ∀ {b v}, v ∈ ((f.block b).insts.flatMap fun op => op.inst.results) →
      v ∈ (f.kernel.region.block b).defs := by
    intro b v hv
    rw [region_block]
    exact List.mem_append_right _ (mem_skeletons_results.mpr hv)
  induction order with
  | nil => exact List.nodup_nil
  | cons b order ih =>
    rw [List.nodup_cons] at hnodup
    rw [ops_cons, List.flatMap_append]
    refine List.nodup_append.mpr ⟨?_, ih hnodup.2, ?_⟩
    · have hdefs := hssa.defs_nodup b
      rw [region_block, Llvm.BasicBlock.defs, skeletons, List.flatMap_map] at hdefs
      exact (List.nodup_append.mp hdefs).2.1
    · rintro v hv w hw rfl
      obtain ⟨op, hop, hres⟩ := List.mem_flatMap.mp hw
      obtain ⟨c, hc, hop⟩ := List.mem_flatMap.mp hop
      have heq := hssa.block_unique (hmem hv) (hmem (List.mem_flatMap.mpr ⟨op, hop, hres⟩))
      exact hnodup.1 (heq ▸ hc)

/-- A parameter of a block is not defined by an operation. -/
theorem param_not_result (hssa : f.kernel.region.Ssa) (order : List Nat) {c : Nat} {v : Value}
    (hv : v ∈ (f.block c).params) : v ∉ (f.ops order).flatMap fun op => op.inst.results := by
  intro hmem
  obtain ⟨op, hop, hres⟩ := List.mem_flatMap.mp hmem
  obtain ⟨b, -, hop⟩ := List.mem_flatMap.mp hop
  refine Kernel.param_notMem_results hssa (b := c) ?_ (mem_insts_of_block hop) hres
  rw [kernel_block]
  exact hv

end EmitFunc

/-! ## What plans read -/

section Plans

variable {f : EmitFunc} {order : List Nat}

open EmitFunc (Site skeletons)

/-- A visited operation of a known kind has the value for an operand. -/
def Named (ops : List EmitInst) (v : Value) : Prop :=
  ∃ op ∈ ops, v ∈ op.inst.operands ∧ ∀ results operands, op.inst ≠ .other results operands

/-- A visited cast has the value for an operand. -/
def CastUsed (ops : List EmitInst) (v : Value) : Prop :=
  ∃ op ∈ ops, ∃ kind result, op.inst = .cast kind result v

/-- A plan reads values that are available at an operation, and its terms are
    integers. -/
structure Grounded (f : EmitFunc) (order : List Nat) (b : Nat) (done : List EmitInst)
    (plan : FoldedAddr) : Prop where
  available : ∀ v ∈ plan.reads, f.kernel.region.Available b (skeletons done) v
  named : ∀ v ∈ plan.reads, Named (f.ops order) v
  int : ∀ term ∈ plan.terms, term.value.ty.intWidth.isSome = true

/-- No operation from `after` on folds the root, unless a cast reads it. -/
def RootFree (ops : List EmitInst) (plans : Value → Option FoldedAddr) (after : List EmitInst)
    (root : Value) : Prop :=
  CastUsed ops root ∨ plans root = none ∧ root ∉ after.flatMap fun op => op.inst.results

/-- What the plans made so far read is available where their addresses are
    computed. -/
def PlansOk (f : EmitFunc) (order : List Nat) (plans : Value → Option FoldedAddr)
    (after : List EmitInst) : Prop :=
  ∀ r plan, plans r = some plan → ∃ before op rest b done,
    Site f order before op rest b done ∧ r ∈ op.inst.results ∧ isGep op.inst = true ∧
      Grounded f order b done plan ∧ RootFree (f.ops order) plans after plan.root

section Available

variable (hssa : f.kernel.region.Ssa) (huses : f.kernel.region.UsesDominated)
  (horder : ReversePostOrder f.kernel.region.Edge 0 order)
  {before after : List EmitInst} {op : EmitInst} {b : Nat} {done : List EmitInst}

include huses horder in
theorem available_operands (h : Site f order before op after b done) {v : Value}
    (hv : v ∈ op.inst.operands) : f.kernel.region.Available b (skeletons done) v := by
  obtain ⟨rest, hsplit⟩ := h.split
  exact huses b _ _ rest hsplit (h.reached horder) v (Inst.mem_skeleton_operands hv)

include hssa horder in
/-- What was available where a value was defined is available where the value
    is. -/
theorem available_trans (h : Site f order before op after b done) {before' after' : List EmitInst}
    {op' : EmitInst} {b' : Nat} {done' : List EmitInst}
    (h' : Site f order before' op' after' b' done') {r v : Value} (hr : r ∈ op'.inst.results)
    (hv : f.kernel.region.Available b' (skeletons done') v)
    (havail : f.kernel.region.Available b (skeletons done) r) :
    f.kernel.region.Available b (skeletons done) v := by
  obtain ⟨rest, hsplit⟩ := h.split
  obtain ⟨rest', hsplit'⟩ := h'.split
  exact hssa.available_trans hsplit' hr hv hsplit (h.reached horder) havail

include hssa horder in
/-- The operation that defines an available value is visited before. -/
theorem exists_definition (h : Site f order before op after b done) {v : Value} {inst : Inst}
    (hdef : definingOp f.kernel v = some inst)
    (havail : f.kernel.region.Available b (skeletons done) v) :
    ∃ before' op' after' b' done', Site f order before' op' after' b' done' ∧ op'.inst = inst ∧
      v ∈ inst.results := by
  obtain ⟨hinst, hres⟩ := mem_of_definingOp hdef
  rcases h.available_visited horder havail with ⟨c, -, hparam⟩ | hbefore
  · refine absurd hres (Kernel.param_notMem_results hssa (b := c) ?_ hinst)
    rw [EmitFunc.kernel_block]
    exact hparam
  · obtain ⟨op', hop', hres'⟩ := List.mem_flatMap.mp hbefore
    obtain ⟨p, q, rfl⟩ := List.append_of_mem hop'
    have hops : f.ops order = p ++ op' :: (q ++ op :: after) := by
      rw [h.ops, List.append_assoc, List.cons_append]
    obtain ⟨b', done', hsite⟩ := EmitFunc.exists_site hops
    exact ⟨p, op', _, b', done', hsite,
      Kernel.inst_unique hssa hsite.mem_insts hinst hres' hres, hres⟩

include hssa huses horder in
/-- The operands of an available value's definition are available. -/
theorem available_definition (h : Site f order before op after b done) {v : Value} {inst : Inst}
    (hdef : definingOp f.kernel v = some inst)
    (havail : f.kernel.region.Available b (skeletons done) v) :
    ∀ w ∈ inst.operands, f.kernel.region.Available b (skeletons done) w := by
  obtain ⟨p, op', q, b', done', hsite, rfl, hres⟩ := exists_definition hssa horder h hdef havail
  exact fun w hw => available_trans hssa horder h hsite hres
    (available_operands huses horder hsite hw) havail

end Available

theorem Site.mem_ops {before after : List EmitInst} {op : EmitInst} {b : Nat}
    {done : List EmitInst} (h : Site f order before op after b done) : op ∈ f.ops order := by
  rw [h.ops]
  exact List.mem_append_right _ List.mem_cons_self

section Folding

variable (hssa : f.kernel.region.Ssa) (huses : f.kernel.region.UsesDominated)
  (htyped : f.Typed) (horder : ReversePostOrder f.kernel.region.Edge 0 order)
  {before after : List EmitInst} {op : EmitInst} {b : Nat} {done : List EmitInst}

include hssa huses htyped horder in
/-- Available integers that are operands hand this on to the operands of what
    computes them. -/
theorem peelClosed (h : Site f order before op after b done) :
    PeelClosed f.kernel fun v => f.kernel.region.Available b (skeletons done) v ∧
      Named (f.ops order) v ∧ v.ty.intWidth.isSome = true := by
  constructor
  · rintro v kind r a a' hdef ⟨havail, -, -⟩
    have hoperands := available_definition hssa huses horder h hdef havail
    obtain ⟨p, op', q, b', done', hsite, heq, -⟩ := exists_definition hssa horder h hdef havail
    have hty := htyped _ (mem_of_definingOp hdef).1
    have hnamed : ∀ w ∈ (Inst.bin kind r a a').operands, Named (f.ops order) w := fun w hw =>
      ⟨op', Site.mem_ops hsite, heq ▸ hw, fun _ _ hne => by rw [heq] at hne; cases hne⟩
    have ha : a ∈ (Inst.bin kind r a a').operands := List.mem_cons_self
    have ha' : a' ∈ (Inst.bin kind r a a').operands := List.mem_cons_of_mem _ List.mem_cons_self
    exact ⟨⟨hoperands a ha, hnamed a ha, hty.1⟩, ⟨hoperands a' ha', hnamed a' ha', hty.2⟩⟩
  · rintro v r a hdef ⟨havail, -, -⟩
    have hoperands := available_definition hssa huses horder h hdef havail
    obtain ⟨p, op', q, b', done', hsite, heq, -⟩ := exists_definition hssa horder h hdef havail
    have hty := htyped _ (mem_of_definingOp hdef).1
    have ha : a ∈ (Inst.zext r a).operands := List.mem_cons_self
    exact ⟨hoperands a ha, ⟨op', Site.mem_ops hsite, heq ▸ ha,
      fun _ _ hne => by rw [heq] at hne; cases hne⟩, hty⟩

include hssa huses horder in
/-- What a value aliases is the value itself, or is read by a visited cast. -/
theorem unwrapAliases_ok (h : Site f order before op after b done)
    (spaces : Value → Option PtrSpace) (fuel : Nat) {v : Value}
    (havail : f.kernel.region.Available b (skeletons done) v) (hnamed : Named (f.ops order) v) :
    f.kernel.region.Available b (skeletons done) (unwrapAliases f.kernel spaces fuel v) ∧
      Named (f.ops order) (unwrapAliases f.kernel spaces fuel v) ∧
      (unwrapAliases f.kernel spaces fuel v = v ∨
        CastUsed (f.ops order) (unwrapAliases f.kernel spaces fuel v)) := by
  induction fuel generalizing v with
  | zero => exact ⟨havail, hnamed, .inl rfl⟩
  | succ fuel ih =>
    rw [unwrapAliases]
    split
    · rename_i operand halias
      split
      · obtain ⟨kind, r, hdef⟩ : ∃ kind r, definingOp f.kernel v = some (.cast kind r operand) := by
          rw [aliasOf] at halias
          split at halias <;> cases halias <;> exact ⟨_, _, ‹_›⟩
        obtain ⟨p, op', q, b', done', hsite, heq, -⟩ :=
          exists_definition hssa horder h hdef havail
        have hmem : operand ∈ (Inst.cast kind r operand).operands := List.mem_cons_self
        have hnamed' : Named (f.ops order) operand :=
          ⟨op', Site.mem_ops hsite, heq ▸ hmem, fun _ _ hne => by rw [heq] at hne; cases hne⟩
        obtain ⟨h1, h2, h3⟩ :=
          ih (available_definition hssa huses horder h hdef havail operand hmem) hnamed'
        refine ⟨h1, h2, .inr ?_⟩
        rcases h3 with h3 | h3
        · rw [h3]
          exact ⟨op', Site.mem_ops hsite, kind, r, heq⟩
        · exact h3
      · exact ⟨havail, hnamed, .inl rfl⟩
    · exact ⟨havail, hnamed, .inl rfl⟩

include hssa horder in
/-- What is available at an operation is not defined there or behind it. -/
theorem not_defined_after (h : Site f order before op after b done) {v : Value}
    (havail : f.kernel.region.Available b (skeletons done) v) :
    v ∉ (op :: after).flatMap fun op => op.inst.results := by
  intro hmem
  have hnodup := EmitFunc.nodup_results hssa horder.nodup
  rcases h.available_visited horder havail with ⟨c, -, hparam⟩ | hbefore
  · apply EmitFunc.param_not_result hssa order hparam
    rw [h.ops, List.flatMap_append]
    exact List.mem_append_right _ hmem
  · rw [h.ops, List.flatMap_append] at hnodup
    exact (List.nodup_append.mp hnodup).2.2 v hbefore v hmem rfl

include hssa huses htyped horder in
/-- The plan of one `getelementptr`. -/
theorem foldGep_ok (h : Site f order before op after b done) (spaces : Value → Option PtrSpace)
    {p : AddrPlans} (hplans : PlansOk f order p.plans (op :: after)) {result base : Value} {ty : Ty}
    {indices : List GepIndex} (hop : op.inst = .gep result base ty indices) {plan : FoldedAddr}
    (hfold : (foldGep f.kernel spaces p result base ty indices).1 = some plan) :
    Grounded f order b done plan ∧ RootFree (f.ops order) p.plans (op :: after) plan.root := by
  have hoperands : ∀ v ∈ base :: indices.flatMap GepIndex.operands,
      f.kernel.region.Available b (skeletons done) v ∧ Named (f.ops order) v := by
    intro v hv
    have hv' : v ∈ op.inst.operands := by rw [hop]; exact hv
    exact ⟨available_operands huses horder h hv',
      ⟨op, Site.mem_ops h, hv', fun _ _ hne => by rw [hop] at hne; cases hne⟩⟩
  obtain ⟨hbase, hbaseNamed⟩ := hoperands base List.mem_cons_self
  -- Where folding starts: at the plan of the base, or at what the base aliases.
  have hstart : Grounded f order b done (baseAddr f.kernel spaces p.plans base) ∧
      RootFree (f.ops order) p.plans (op :: after)
        (baseAddr f.kernel spaces p.plans base).root := by
    rw [baseAddr]
    cases hbasePlan : p.plans base with
    | some plan =>
      obtain ⟨p', op', q', b', done', hsite, hres, -, hground, hfree⟩ := hplans base plan hbasePlan
      exact ⟨⟨fun v hv => available_trans hssa horder h hsite hres (hground.available v hv) hbase,
        hground.named, hground.int⟩, hfree⟩
    | none =>
      obtain ⟨h1, h2, h3⟩ := unwrapAliases_ok hssa huses horder h spaces f.kernel.insts.length
        hbase hbaseNamed
      refine ⟨⟨fun v hv => ?_, fun v hv => ?_, fun _ ht => absurd ht List.not_mem_nil⟩, ?_⟩
      · exact List.mem_singleton.mp hv ▸ h1
      · exact List.mem_singleton.mp hv ▸ h2
      · rcases h3 with h3 | h3
        · right
          rw [Option.getD_none, h3]
          exact ⟨hbasePlan, not_defined_after hssa horder h hbase⟩
        · exact .inl h3
  have hterms := foldIndices_all (peelClosed hssa huses htyped horder h) indices ty
    ⟨⟨(baseAddr f.kernel spaces p.plans base).terms, p.memo⟩,
      (baseAddr f.kernel spaces p.plans base).offset⟩
    (fun term hterm => by
      have hread : term.value ∈ (baseAddr f.kernel spaces p.plans base).reads :=
        List.mem_cons_of_mem _ (List.mem_map_of_mem hterm)
      exact ⟨hstart.1.available _ hread, hstart.1.named _ hread, hstart.1.int term hterm⟩)
    (fun v hv => by
      obtain ⟨h1, h2⟩ := hoperands v (List.mem_cons_of_mem _ hv)
      have hty := htyped _ h.mem_insts
      rw [hop] at hty
      exact ⟨h1, h2, hty.2 v hv⟩)
  have hmerged := mergeTerms_all (P := fun v =>
    f.kernel.region.Available b (skeletons done) v ∧ Named (f.ops order) v ∧
      v.ty.intWidth.isSome = true) hterms
  rw [foldGep] at hfold
  split at hfold
  · obtain rfl := Option.some.inj hfold
    have hroot : (baseAddr f.kernel spaces p.plans base).root ∈
        (baseAddr f.kernel spaces p.plans base).reads := List.mem_cons_self
    refine ⟨⟨fun v hv => ?_, fun v hv => ?_, fun term ht => (hmerged term ht).2.2⟩, hstart.2⟩
    · rcases List.mem_cons.mp hv with rfl | hv
      · exact hstart.1.available _ hroot
      · obtain ⟨term, hterm, rfl⟩ := List.mem_map.mp hv
        exact (hmerged term hterm).1
    · rcases List.mem_cons.mp hv with rfl | hv
      · exact hstart.1.named _ hroot
      · obtain ⟨term, hterm, rfl⟩ := List.mem_map.mp hv
        exact (hmerged term hterm).2.1
  · cases hfold

/-- A root no later operation folds stays so. -/
theorem RootFree.update {ops : List EmitInst} {plans : Value → Option FoldedAddr} {root : Value}
    (h : RootFree ops plans (op :: after) root) {r : Value} (hr : r ∈ op.inst.results)
    (plan : Option FoldedAddr) :
    RootFree ops (Function.update plans r plan) after root := by
  rcases h with h | ⟨hnone, hnot⟩
  · exact .inl h
  · rw [List.flatMap_cons, List.mem_append, not_or] at hnot
    refine .inr ⟨?_, hnot.2⟩
    have hne : root ≠ r := fun heq => hnot.1 (heq ▸ hr)
    rw [Function.update_of_ne hne, hnone]

theorem RootFree.tail {ops : List EmitInst} {plans : Value → Option FoldedAddr} {root : Value}
    (h : RootFree ops plans (op :: after) root) : RootFree ops plans after root := by
  rcases h with h | ⟨hnone, hnot⟩
  · exact .inl h
  · rw [List.flatMap_cons, List.mem_append, not_or] at hnot
    exact .inr ⟨hnone, hnot.2⟩

theorem PlansOk.tail {plans : Value → Option FoldedAddr} (h : PlansOk f order plans (op :: after)) :
    PlansOk f order plans after := by
  intro r plan hr
  obtain ⟨p', op', q', b', done', hsite, hres, hgep, hground, hfree⟩ := h r plan hr
  exact ⟨p', op', q', b', done', hsite, hres, hgep, hground, hfree.tail⟩

include hssa huses htyped horder in
theorem planInst_ok (h : Site f order before op after b done) (spaces : Value → Option PtrSpace)
    {p : AddrPlans} (hplans : PlansOk f order p.plans (op :: after)) :
    PlansOk f order (planInst f.kernel spaces p op.inst).plans after := by
  unfold planInst
  split
  · rename_i result base ty indices hop
    have hresult : result ∈ op.inst.results := by
      rw [hop]
      exact List.mem_cons_self
    dsimp only
    cases hfold : (foldGep f.kernel spaces p result base ty indices).1 with
    | none => exact hplans.tail
    | some plan =>
      obtain ⟨hground, hfree⟩ := foldGep_ok hssa huses htyped horder h spaces hplans hop hfold
      intro r plan' hr
      change Function.update p.plans result (some plan) r = some plan' at hr
      by_cases hrr : r = result
      · subst hrr
        rw [Function.update_self] at hr
        obtain rfl := Option.some.inj hr
        exact ⟨_, _, _, _, _, h, hresult, by rw [hop]; rfl, hground, hfree.update hresult _⟩
      · rw [Function.update_of_ne hrr] at hr
        obtain ⟨p', op', q', b', done', hsite, hres, hgep, hground', hfree'⟩ := hplans r plan' hr
        exact ⟨p', op', q', b', done', hsite, hres, hgep, hground', hfree'.update hresult _⟩
  · exact hplans.tail

end Folding

/-- The plans of a function. -/
theorem foldPlans_ok (hssa : f.kernel.region.Ssa) (huses : f.kernel.region.UsesDominated)
    (htyped : f.Typed) (horder : ReversePostOrder f.kernel.region.Edge 0 order)
    (spaces : Value → Option PtrSpace) :
    PlansOk f order (foldPlans f.kernel spaces (f.ops order)) [] := by
  have hrun : ∀ (after before : List EmitInst) (p : AddrPlans), f.ops order = before ++ after →
      PlansOk f order p.plans after →
      PlansOk f order (after.foldl (fun p op => planInst f.kernel spaces p op.inst) p).plans [] := by
    intro after
    induction after with
    | nil => exact fun before p _ h => h
    | cons op after ih =>
      intro before p hops h
      obtain ⟨b, done, hsite⟩ := EmitFunc.exists_site hops
      refine ih (before ++ [op]) _ ?_ (planInst_ok hssa huses htyped horder hsite spaces h)
      rw [hops, List.append_assoc]
      rfl
  exact hrun (f.ops order) [] _ rfl fun r plan hr => by cases hr

end Plans

end Crabbit.Nvptx
