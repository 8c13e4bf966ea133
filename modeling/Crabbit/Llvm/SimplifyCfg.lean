/-
  Crabbit.Llvm.SimplifyCfg

  CFG simplification (`simplify_cfg.rs`): fold constant conditional branches,
  remove unreachable blocks, merge straight-line block pairs and bypass empty
  forwarding blocks.

  Blocks keep their numbers: an erased block is left without parameters and
  operations, which no block of a function is before.
-/

import Crabbit.Lib.Worklist
import Crabbit.Llvm.CfgRuns
import Crabbit.Llvm.Gvn

namespace Crabbit.Llvm

open Crabbit.Lib

def ConstOperand.isTrue (c : ConstOperand) : Bool := c.masked ≠ 0

namespace Region

variable (A : CfgTable) (g : Region)

/-! ## Changing a function -/

def setBlock (b : Nat) (block : BasicBlock) : Region := ⟨g.blocks.set b block⟩

/-- A new terminator in place of the old one. -/
def setTerminator (b : Nat) (branch : Branch) : Region :=
  g.setBlock b ⟨(g.block b).params, (g.block b).ops.dropLast ++ [branch.op]⟩

/-- `BasicBlock::erase` -/
def eraseBlock (b : Nat) : Region := g.setBlock b ⟨[], []⟩

def substAll (repl : Value → Value) : Region :=
  ⟨g.blocks.map fun block => ⟨block.params, block.ops.map (Op.subst repl)⟩⟩

/-- The terminator of a block, if it only branches. -/
def branch? (b : Nat) : Option Branch := (g.block b).ops.getLast?.bind Op.branch?

/-! ## Folding branches -/

/-- `as_const_operand` -/
def constOperand (v : Value) : Option ConstOperand := (g.definingOp v).bind (Op.const? A)

/-- Whether a comparison with zero is a negation. -/
def negateOnZero? : ICmpPredicate → Option Bool
  | .eq => some true
  | .ne => some false
  | _ => none

/-- The operand that is compared with a constant, on either side. -/
def constantSide (lhs rhs : Value) : Option (Value × ConstOperand) :=
  match g.constOperand A rhs with
  | some c => some (lhs, c)
  | none => (g.constOperand A lhs).map fun c => (rhs, c)

/-- `negated_i1_condition`: when the condition is `icmp eq/ne %c, <const i1>`
    with `%c` itself a single bit, `%c` and whether the comparison negates it. -/
def negatedI1Condition (cond : Value) : Option (Value × Bool) :=
  match g.definingOp cond with
  | some (.generic .icmp attrs [_] [lhs, rhs] []) => do
    let negateOnZero ← negateOnZero? (A.icmp attrs)
    let (value, constant) ← g.constantSide A lhs rhs
    if constant.width ≠ 1 then none
    else if value.ty.intWidth ≠ some 1 then none
    else some (value, negateOnZero ^^ constant.isTrue)
  | _ => none

/-- What a terminator is folded to. -/
def foldBranch (b : Nat) : Option Branch :=
  match g.branch? b with
  | some (.condBr cond t f) =>
    match g.negatedI1Condition A cond with
    | some (direct, negated) =>
      some (if negated then .condBr direct f t else .condBr direct t f)
    | none =>
      let taken := match g.constOperand A cond with
        | some c => some c.isTrue
        | none => if t.dest = f.dest ∧ t.args = f.args then some true else none
      taken.map fun taken => .br (if taken then t else f)
  | _ => none

/-- `fold_constant_branches` -/
def foldConstantBranches : Region × Bool :=
  (List.range g.blocks.length).foldl (fun (g, changed) b =>
    match g.foldBranch A b with
    | some branch => (g.setTerminator b branch, true)
    | none => (g, changed)) (g, false)

/-! ## Unreachable blocks -/

/-- The blocks the entry block can reach. -/
def reachableBlocks : List Nat :=
  let visit := fun b => some (g.succs b)
  match flood visit (2 + pushes visit (List.range g.blocks.length) []) [0] [] with
  | .finished reachable => reachable
  | _ => List.range g.blocks.length

/-- `remove_unreachable_blocks` -/
def removeUnreachableBlocks : Region × Bool :=
  let dead := (List.range g.blocks.length).filter fun b =>
    b ∉ g.reachableBlocks ∧ g.block b ≠ ⟨[], []⟩
  (dead.foldl eraseBlock g, !dead.isEmpty)

/-! ## Straight lines -/

/-- The number of edges to a block. -/
def numPreds (b : Nat) : Nat :=
  ((g.ops.flatMap Op.succs).map Successor.dest).count b

/-- The edge from a block to its only successor, if that can be merged into
    it. -/
def mergeable (b : Nat) : Option Successor :=
  match g.branch? b with
  | some (.br succ) =>
    if succ.dest = b ∨ g.numPreds succ.dest ≠ 1 then none
    -- The arguments of the entry block are the function parameters.
    else if succ.dest = 0 then none
    else if succ.args.length ≠ (g.block succ.dest).params.length then none
    else some succ
  | _ => none

/-- The value to use for `v` once parameters are replaced by arguments, one
    after the other. -/
def bindArgs (params args : List Value) (v : Value) : Value :=
  (params.zip args).foldl (fun v (param, arg) => redirect param arg v) v

/-- The arguments become those of the branch, and the body is appended. -/
def mergeInto (b : Nat) (succ : Successor) : Region :=
  let body := g.block succ.dest
  ((g.setBlock b ⟨(g.block b).params, (g.block b).ops.dropLast ++ body.ops⟩).eraseBlock
    succ.dest).substAll (bindArgs body.params succ.args)

/-- The first merge in layout order. -/
def mergeOnce : Option Region :=
  (List.range g.blocks.length).findSome? fun b => (g.mergeable b).map (g.mergeInto b)

/-! ## Forwarding blocks -/

/-- An edge into a forwarding block becomes one to its destination. -/
def forwarded (params : List Value) (succ edge : Successor) : Option Successor :=
  if edge.args.length ≠ params.length then none
  else some ⟨succ.dest, succ.args.map fun v =>
    if v ∈ params then edge.args.getD (params.idxOf v) v else v⟩

/-- An edge to block `b` is changed, any other is left alone. -/
def retargetEdge (b : Nat) (params : List Value) (succ edge : Successor) : Option Successor :=
  if edge.dest = b then forwarded params succ edge else some edge

/-- The terminator of a predecessor with its edges to block `b` retargeted. -/
def retarget (b : Nat) (params : List Value) (succ : Successor) : Branch → Option Branch
  | .br t => if t.dest ≠ b then none else (forwarded params succ t).map .br
  | .condBr cond t f => do
    let t' ← retargetEdge b params succ t
    let f' ← retargetEdge b params succ f
    if t.dest = b ∨ f.dest = b then some (.condBr cond t' f') else none

/-- The branch of a block that does nothing else, and whose arguments nothing
    else uses. -/
def forwarding (b : Nat) : Option Successor :=
  match (g.block b).ops with
  | [term] =>
    match term.branch? with
    | some (.br succ) =>
      if succ.dest = b then none
      else if ∃ v ∈ (g.block b).params, ∃ c ∈ List.range g.blocks.length, c ≠ b ∧
          ∃ op ∈ (g.block c).ops, v ∈ op.operands then none
      else some succ
    | _ => none
  | _ => none

/-- One block is bypassed. -/
def bypassBlock (b : Nat) : Region × Bool :=
  match g.forwarding b with
  | none => (g, false)
  | some succ =>
    (List.range g.blocks.length).foldl (fun (g', changed) c =>
      match (g'.branch? c).bind (retarget b (g.block b).params succ) with
      | some branch => (g'.setTerminator c branch, true)
      | none => (g', changed)) (g, false)

/-- `bypass_forwarding_blocks` -/
def bypassForwardingBlocks : Region × Bool :=
  (List.range g.blocks.length).tail.foldl (fun (g, changed) b =>
    ((g.bypassBlock b).1, changed || (g.bypassBlock b).2)) (g, false)

end Region

/-! ## Changed blocks -/

namespace Region

variable {A : CfgTable} {g : Region} {b : Nat} {block : BasicBlock}

@[simp]
theorem length_setBlock : (g.setBlock b block).blocks.length = g.blocks.length :=
  List.length_set

theorem block_setBlock (hb : b < g.blocks.length) (c : Nat) :
    (g.setBlock b block).block c = if c = b then block else g.block c := by
  unfold setBlock Region.block
  rw [List.getD_eq_getElem?_getD, List.getD_eq_getElem?_getD, List.getElem?_set]
  by_cases hcb : b = c
  · subst hcb
    rw [if_pos rfl, if_pos hb, if_pos rfl]
    rfl
  · rw [if_neg hcb, if_neg (Ne.symm hcb)]

theorem setBlock_of_not_lt (hb : ¬ b < g.blocks.length) : g.setBlock b block = g := by
  unfold setBlock
  rw [List.set_eq_of_length_le (Nat.not_lt.mp hb)]

theorem block_eraseBlock (b c : Nat) :
    (g.eraseBlock b).block c = if c = b then ⟨[], []⟩ else g.block c := by
  by_cases hb : b < g.blocks.length
  · exact block_setBlock hb c
  · unfold eraseBlock
    rw [setBlock_of_not_lt hb]
    split_ifs with hcb
    · rw [hcb]
      unfold Region.block
      rw [List.getD_eq_getElem?_getD, List.getElem?_eq_none (Nat.not_lt.mp hb)]
      rfl
    · rfl

theorem block_substAll (repl : Value → Value) (c : Nat) :
    (g.substAll repl).block c = ⟨(g.block c).params, (g.block c).ops.map (Op.subst repl)⟩ := by
  unfold substAll Region.block
  rw [List.getD_eq_getElem?_getD, List.getD_eq_getElem?_getD, List.getElem?_map]
  cases g.blocks[c]? with
  | none => rfl
  | some block => rfl

/-- The terminator of a block that only branches. -/
theorem branch?_eq_some {branch : Branch} (h : g.branch? b = some branch) :
    b < g.blocks.length ∧ ∃ init term, (g.block b).ops = init ++ [term] ∧
      term.branch? = some branch := by
  obtain ⟨term, hterm, hbranch⟩ := Option.bind_eq_some_iff.mp h
  obtain ⟨init, hops⟩ := List.getLast?_eq_some_iff.mp hterm
  refine ⟨?_, init, term, hops, hbranch⟩
  by_contra hb
  rw [block_ops_eq_nil hb] at hops
  simp at hops

/-! ## The merges come to an end -/

theorem length_flatMap_set {α β : Type*} {l : List α} {i : Nat} (f : α → List β) (x : α)
    (hi : i < l.length) :
    ((l.set i x).flatMap f).length + (f l[i]).length = (l.flatMap f).length + (f x).length := by
  induction l generalizing i with
  | nil => exact absurd hi (Nat.not_lt_zero _)
  | cons y l ih =>
    cases i with
    | zero =>
      simp only [List.set_cons_zero, List.flatMap_cons, List.length_append, List.getElem_cons_zero]
      omega
    | succ i =>
      have := ih (Nat.lt_of_succ_lt_succ hi)
      simp only [List.set_cons_succ, List.flatMap_cons, List.length_append, List.getElem_cons_succ]
      omega

theorem length_ops_setBlock (block : BasicBlock) (hb : b < g.blocks.length) :
    (g.setBlock b block).ops.length + (g.block b).ops.length
      = g.ops.length + block.ops.length := by
  have h := length_flatMap_set BasicBlock.ops block hb
  rwa [← block_eq_getElem hb] at h

theorem length_ops_eraseBlock (b : Nat) :
    (g.eraseBlock b).ops.length + (g.block b).ops.length = g.ops.length := by
  by_cases hb : b < g.blocks.length
  · exact length_ops_setBlock _ hb
  · rw [eraseBlock, setBlock_of_not_lt hb, block_ops_eq_nil hb]
    rfl

theorem length_ops_substAll (repl : Value → Value) : (g.substAll repl).ops.length = g.ops.length := by
  unfold substAll ops
  rw [List.flatMap_map, List.length_flatMap, List.length_flatMap]
  congr 1
  apply List.map_congr_left
  intro block _
  exact List.length_map _

/-- What can be merged. -/
theorem mergeable_eq_some {succ : Successor} (h : g.mergeable b = some succ) :
    g.branch? b = some (.br succ) ∧ succ.dest ≠ b ∧ g.numPreds succ.dest = 1 ∧ succ.dest ≠ 0 ∧
      succ.args.length = (g.block succ.dest).params.length := by
  unfold mergeable at h
  split at h
  · rename_i succ' hbranch
    split_ifs at h with h1 h2 h3
    cases h
    rw [not_or, not_not] at h1
    exact ⟨hbranch, h1.1, h1.2, h2, not_not.mp h3⟩
  · cases h

/-- A merge erases a branch. -/
theorem length_ops_mergeInto {succ : Successor} (h : g.mergeable b = some succ) :
    (g.mergeInto b succ).ops.length < g.ops.length := by
  obtain ⟨hbranch, hne, -, -, -⟩ := mergeable_eq_some h
  obtain ⟨hb, init, term, hops, -⟩ := branch?_eq_some hbranch
  unfold mergeInto
  rw [length_ops_substAll]
  have hset := length_ops_setBlock ⟨(g.block b).params,
    (g.block b).ops.dropLast ++ (g.block succ.dest).ops⟩ hb
  have herase := length_ops_eraseBlock (g := g.setBlock b ⟨(g.block b).params,
    (g.block b).ops.dropLast ++ (g.block succ.dest).ops⟩) succ.dest
  rw [block_setBlock hb, if_neg hne] at herase
  rw [hops] at hset herase ⊢
  simp only [List.dropLast_concat, List.length_append, List.length_singleton] at hset herase ⊢
  omega

theorem length_ops_mergeOnce {g' : Region} (h : g.mergeOnce = some g') :
    g'.ops.length < g.ops.length := by
  obtain ⟨b, -, hb⟩ := List.exists_of_findSome?_eq_some h
  obtain ⟨succ, hsucc, rfl⟩ := Option.map_eq_some_iff.mp hb
  exact length_ops_mergeInto hsucc

variable (A) (g)

/-- `merge_straight_line_blocks`: one merge after the other, until there is
    none left. -/
def mergeStraightLineBlocks (g : Region) : Region × Bool :=
  match _ : g.mergeOnce with
  | none => (g, false)
  | some g' => ((mergeStraightLineBlocks g').1, true)
  termination_by g.ops.length
  decreasing_by exact length_ops_mergeOnce ‹_›

/-! ## The pass -/

/-- One round, and whether it changed anything. -/
def simplifyRound : Region × Bool :=
  let folded := g.foldConstantBranches A
  let pruned := folded.1.removeUnreachableBlocks
  let merged := pruned.1.mergeStraightLineBlocks
  let bypassed := merged.1.bypassForwardingBlocks
  (bypassed.1, folded.2 || pruned.2 || merged.2 || bypassed.2)

/-- At most `n` rounds, until one changes nothing. -/
def simplifyRounds : Nat → Region → Region
  | 0, g => g
  | n + 1, g => if (g.simplifyRound A).2 then simplifyRounds n (g.simplifyRound A).1
    else (g.simplifyRound A).1

/-- `MAX_ITERATIONS` -/
def maxIterations : Nat := 32

def simplifyCfg : Region := simplifyRounds A maxIterations g

end Region

end Crabbit.Llvm
