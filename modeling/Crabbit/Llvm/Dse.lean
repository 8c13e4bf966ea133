/-
  Crabbit.Llvm.Dse

  Global dead-store elimination: backward memory liveness over the blocks of a
  function, with symbolic address keys.

  A store is deleted when its key is not live after it.  Reads make live every
  key that is not provably distinct from theirs, calls every key but those
  rooted at a non-escaping alloca, and only a store to the same key kills.
-/

import Crabbit.Llvm.BackwardFixpoint
import Crabbit.Llvm.Effects
import Crabbit.Llvm.Escape

namespace Crabbit.Llvm

namespace Region

variable (g : Region)

/-! ## Keys and what reads them -/

/-- The key is rooted at a non-escaping alloca. -/
def isProtected (k : AddrKey) : Bool := keyRoot k ∈ g.nonescapingAllocas

/-- The keys of all loads and stores. -/
def keys : Finset AddrKey :=
  g.ops.foldl (fun keys op =>
    match op with
    | .store _ address => insert (g.addrKey address) keys
    | .load _ address => insert (g.addrKey address) keys
    | _ => keys) ∅

/-- Two keys that cannot name a common byte. -/
def distinct (a b : AddrKey) : Bool :=
  a ≠ b ∧ ((g.isAlloca (keyRoot a) ∧ g.isAlloca (keyRoot b) ∧ keyRoot a ≠ keyRoot b) ∨
    (g.isProtected a ∧ keyRoot a ≠ keyRoot b) ∨ (g.isProtected b ∧ keyRoot a ≠ keyRoot b))

/-- What a read of a key makes live. -/
def readSet (a : AddrKey) : Finset AddrKey := g.keys.filter fun b => ¬ g.distinct a b

/-- What a call, a return or an unknown operation makes live. -/
def unknownRead : Finset AddrKey := g.keys.filter fun k => ¬ g.isProtected k

/-! ## Liveness -/

/-- `gen |= reads - kill` -/
def genReads (upward kill reads : Finset AddrKey) : Finset AddrKey := upward ∪ (reads \ kill)

/-- One operation of the forward scan: keys read before they are overwritten,
    and keys overwritten before they are read. -/
def scanOp (s : Finset AddrKey × Finset AddrKey) (op : Op) : Finset AddrKey × Finset AddrKey :=
  match op with
  | .store _ address =>
    if g.addrKey address ∈ s.1 then s else (s.1, insert (g.addrKey address) s.2)
  | .load _ address => (genReads s.1 s.2 (g.readSet (g.addrKey address)), s.2)
  | op => if memoryBenign op.opid then s else (genReads s.1 s.2 g.unknownRead, s.2)

def scanBlock (b : Nat) : Finset AddrKey × Finset AddrKey :=
  (g.block b).ops.foldl g.scanOp (∅, ∅)

/-- The dataflow problem: everything unprotected is observable after the
    function. -/
def livenessProblem : BackwardProblem AddrKey where
  succs := g.succs
  boundary _ := g.unknownRead
  transfer b out := (g.scanBlock b).1 ∪ (out \ (g.scanBlock b).2)

/-- One operation of the backward deletion walk: the keys live before it, and
    the operations kept from it on. -/
def sweepOp (op : Op) (s : Finset AddrKey × List Op) : Finset AddrKey × List Op :=
  match op with
  | .store _ address =>
    if g.addrKey address ∉ s.1 then s else (s.1.erase (g.addrKey address), op :: s.2)
  | .load _ address => (s.1 ∪ g.readSet (g.addrKey address), op :: s.2)
  | op => if memoryBenign op.opid then (s.1, op :: s.2) else (s.1 ∪ g.unknownRead, op :: s.2)

def sweep (ops : List Op) (live : Finset AddrKey) : Finset AddrKey × List Op :=
  ops.foldr g.sweepOp (live, [])

/-- The live sets at the ends of the blocks. -/
def liveOut : Option (Nat → Finset AddrKey) :=
  (g.livenessProblem.fixpoint g.blocks.length (g.blocks.length * g.keys.card + 1)).map Prod.snd

/-- `dse_region`; none if the fixpoint did not end, which
    `exists_dseRegion` excludes. -/
def dseRegion : Option Region :=
  if g.keys = ∅ then some g
  else
    g.liveOut.map fun out =>
      ⟨g.blocks.mapIdx fun b block => { block with ops := (g.sweep block.ops (out b)).2 }⟩

variable {g : Region}

/-! ## The analysis ends -/

theorem readSet_subset (a : AddrKey) : g.readSet a ⊆ g.keys := Finset.filter_subset ..

theorem unknownRead_subset : g.unknownRead ⊆ g.keys := Finset.filter_subset ..

theorem mem_unknownRead {k : AddrKey} :
    k ∈ g.unknownRead ↔ k ∈ g.keys ∧ g.isProtected k = false := by
  unfold unknownRead
  rw [Finset.mem_filter, Bool.not_eq_true]

theorem mem_readSet {a k : AddrKey} : k ∈ g.readSet a ↔ k ∈ g.keys ∧ g.distinct a k = false := by
  unfold readSet
  rw [Finset.mem_filter, Bool.not_eq_true]

/-- Every load and store has its key in the table. -/
theorem mem_keys {op : Op} (h : op ∈ g.ops) {address : Value}
    (hop : (∃ v, op = .store v address) ∨ ∃ r, op = .load r address) :
    g.addrKey address ∈ g.keys := by
  -- The table only grows, and grows by the key at the operation.
  have hgrow : ∀ (ops : List Op) (s : Finset AddrKey),
      (g.addrKey address ∈ s ∨ op ∈ ops) → g.addrKey address ∈ ops.foldl (fun keys op =>
        match op with
        | .store _ address => insert (g.addrKey address) keys
        | .load _ address => insert (g.addrKey address) keys
        | _ => keys) s := by
    intro ops
    induction ops with
    | nil =>
      intro s hs
      exact hs.resolve_right List.not_mem_nil
    | cons op' ops ih =>
      intro s hs
      rw [List.foldl_cons]
      apply ih
      rcases hs with hs | hs
      · left
        cases op' with
        | store v a => exact Finset.mem_insert_of_mem hs
        | load r a => exact Finset.mem_insert_of_mem hs
        | _ => exact hs
      · rcases List.mem_cons.mp hs with rfl | hs
        · left
          rcases hop with ⟨v, rfl⟩ | ⟨r, rfl⟩
          · exact Finset.mem_insert_self ..
          · exact Finset.mem_insert_self ..
        · exact Or.inr hs
  exact hgrow g.ops ∅ (Or.inr h)

/-- Without a store there is nothing to delete. -/
theorem sweep_ops_eq_self {ops : List Op} {out : Finset AddrKey}
    (h : ∀ v a, Op.store v a ∉ ops) : (g.sweep ops out).2 = ops := by
  unfold sweep
  induction ops with
  | nil => rfl
  | cons op ops ih =>
    have ih := ih fun v a hmem => h v a (List.mem_cons_of_mem _ hmem)
    rw [List.foldr_cons]
    cases op with
    | store v a => exact absurd List.mem_cons_self (h v a)
    | load r a => exact congrArg (Op.load r a :: ·) ih
    | _ =>
      simp only [sweepOp]
      split <;> rw [ih]

/-- The walk keeps everything that is no store. -/
theorem mem_sweep {ops : List Op} {op : Op} (hop : op ∈ ops) (h : ∀ v a, op ≠ .store v a)
    (out : Finset AddrKey) : op ∈ (g.sweep ops out).2 := by
  induction ops with
  | nil => exact absurd hop List.not_mem_nil
  | cons op' ops ih =>
    show op ∈ (g.sweepOp op' (g.sweep ops out)).2
    rcases List.mem_cons.mp hop with rfl | hop
    · cases op with
      | store v a => exact absurd rfl (h v a)
      | load r a => exact List.mem_cons_self
      | _ =>
        simp only [sweepOp]
        split <;> exact List.mem_cons_self
    · have ih := ih hop
      cases op' with
      | store v a =>
        rw [sweepOp]
        split
        · exact ih
        · exact List.mem_cons_of_mem _ ih
      | load r a => exact List.mem_cons_of_mem _ ih
      | _ =>
        simp only [sweepOp]
        split <;> exact List.mem_cons_of_mem _ ih

theorem sweep_generic (id : OpId) (attrs : Nat) (results operands : List Value)
    (succs : List Successor) (rest : List Op) (out : Finset AddrKey) :
    (g.sweep (.generic id attrs results operands succs :: rest) out).2
      = .generic id attrs results operands succs :: (g.sweep rest out).2 ∧
    (g.sweep rest out).1 ⊆ (g.sweep (.generic id attrs results operands succs :: rest) out).1 := by
  have h : g.sweep (.generic id attrs results operands succs :: rest) out
      = if memoryBenign id then ((g.sweep rest out).1,
          .generic id attrs results operands succs :: (g.sweep rest out).2)
        else ((g.sweep rest out).1 ∪ g.unknownRead,
          .generic id attrs results operands succs :: (g.sweep rest out).2) := rfl
  rw [h]
  split
  · exact ⟨rfl, subset_rfl⟩
  · exact ⟨rfl, Finset.subset_union_left⟩

/-- The walk over a block moves live keys only to keys of the function. -/
theorem sweep_subset (ops : List Op) {out : Finset AddrKey} (h : out ⊆ g.keys) :
    (g.sweep ops out).1 ⊆ g.keys := by
  unfold sweep
  induction ops with
  | nil => exact h
  | cons op ops ih =>
    rw [List.foldr_cons]
    cases op with
    | store value address =>
      rw [sweepOp]
      split
      · exact ih
      · exact (Finset.erase_subset _ _).trans ih
    | load r address => exact Finset.union_subset ih (readSet_subset _)
    | _ =>
      simp only [sweepOp]
      split
      · exact ih
      · exact Finset.union_subset ih unknownRead_subset

/-- The scan of a block summarises its backward walk: what the scan from any
    point on reads first, together with what it does not overwrite, is what
    the walk finds live there. -/
theorem scan_eq_sweep (ops : List Op) (out upward kill : Finset AddrKey) :
    (ops.foldl g.scanOp (upward, kill)).1 ∪ (out \ (ops.foldl g.scanOp (upward, kill)).2)
      = upward ∪ ((g.sweep ops out).1 \ kill) := by
  induction ops generalizing upward kill with
  | nil => rfl
  | cons op ops ih =>
    have hsweep : g.sweep (op :: ops) out = g.sweepOp op (g.sweep ops out) := rfl
    -- A read adds to the upward-exposed keys exactly what it adds to the live ones.
    have hread : ∀ reads : Finset AddrKey,
        genReads upward kill reads ∪ ((g.sweep ops out).1 \ kill)
          = upward ∪ (((g.sweep ops out).1 ∪ reads) \ kill) := by
      intro reads
      unfold genReads
      rw [Finset.union_sdiff_distrib, Finset.union_assoc, Finset.union_comm (reads \ kill)]
    rw [List.foldl_cons, hsweep]
    cases op with
    | store value address =>
      have hlive : (g.sweepOp (.store value address) (g.sweep ops out)).1
          = (g.sweep ops out).1.erase (g.addrKey address) := by
        rw [sweepOp]
        split
        · rename_i hk
          exact (Finset.erase_eq_of_notMem hk).symm
        · rfl
      rw [scanOp, hlive]
      split
      · rename_i hk
        rw [ih]
        ext j
        by_cases hj : j = g.addrKey address <;> simp [hj, hk]
      · rw [ih]
        ext j
        by_cases hj : j = g.addrKey address <;> simp [hj]
    | load r address =>
      rw [scanOp, ih]
      exact hread _
    | _ =>
      simp only [scanOp, sweepOp]
      split
      · exact ih _ _
      · rw [ih]
        exact hread _

/-- The transfer of the dataflow problem is the backward walk over the
    block. -/
theorem transfer_eq_sweep (b : Nat) (out : Finset AddrKey) :
    g.livenessProblem.transfer b out = (g.sweep (g.block b).ops out).1 := by
  have h := scan_eq_sweep (g := g) (g.block b).ops out ∅ ∅
  rw [Finset.empty_union, Finset.sdiff_empty] at h
  exact h

/-- The liveness equations: live at the end of a block is what is observable
    there or live at the start of a successor. -/
def IsLiveOut (g : Region) (out : Nat → Finset AddrKey) : Prop :=
  ∀ b < g.blocks.length, ∀ k, k ∈ out b ↔
    (g.succs b = [] ∧ k ∈ g.unknownRead) ∨
      ∃ s ∈ g.succs b, k ∈ (g.sweep (g.block s).ops (out s)).1

/-- The live-out sets exist and solve the liveness equations. -/
theorem exists_liveOut : ∃ out, g.liveOut = some out ∧ g.IsLiveOut out := by
  have hfuel : g.blocks.length * g.keys.card < g.blocks.length * g.keys.card + 1 :=
    Nat.lt_succ_self _
  obtain ⟨liveIn, out, h⟩ := g.livenessProblem.exists_fixpoint
    (fun b => fun _ _ hle => Finset.union_subset_union_right (Finset.sdiff_subset_sdiff hle le_rfl))
    (fun _ => unknownRead_subset)
    (fun b out hout => by
      rw [transfer_eq_sweep]
      exact sweep_subset _ hout)
    hfuel
  have hsol := BackwardProblem.fixpoint_isSolution h
  refine ⟨out, by rw [liveOut, h]; rfl, fun b hb k => ?_⟩
  rw [hsol.out_eq b hb, BackwardProblem.mem_outOf]
  apply or_congr Iff.rfl
  apply exists_congr
  intro s
  rw [hsol.in_eq s, transfer_eq_sweep]
  rfl

/-- The region the pass leaves behind: every block swept by a solution of the
    liveness equations. -/
theorem exists_dseRegion : ∃ g' out, g.dseRegion = some g' ∧ g.liveOut = some out ∧
    g.IsLiveOut out ∧
    ∀ b, g'.block b = { g.block b with ops := (g.sweep (g.block b).ops (out b)).2 } := by
  obtain ⟨out, hout, hsol⟩ := exists_liveOut (g := g)
  unfold dseRegion
  by_cases hkeys : g.keys = ∅
  · rw [if_pos hkeys]
    refine ⟨g, out, rfl, hout, hsol, fun b => ?_⟩
    rw [sweep_ops_eq_self]
    intro v a hmem
    have := mem_keys (mem_ops_of_block hmem) (Or.inl ⟨v, rfl⟩)
    rw [hkeys] at this
    exact absurd this (Finset.notMem_empty _)
  · rw [if_neg hkeys, hout]
    refine ⟨_, out, rfl, rfl, hsol, fun b => ?_⟩
    unfold block
    simp only [List.getD_eq_getElem?_getD, List.getElem?_mapIdx]
    cases g.blocks[b]? with
    | none => rfl
    | some block => rfl

end Region

end Crabbit.Llvm
