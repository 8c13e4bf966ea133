/-
  Crabbit.Llvm.Function

  Functions of the LLVM dialect as the memory passes see them: blocks with
  parameters, operations, and branches that pass block arguments.

  Address computations, allocas, loads and stores have constructors of their
  own; every other operation is `generic`, named by its kind, with whatever
  attributes it is evaluated by behind an opaque tag.
-/

import Crabbit.Llvm.Scalar
import Mathlib.Data.List.Nodup
import Mathlib.Data.List.Pairwise

namespace Crabbit.Llvm

/-- The operation kinds the effect table lists, and `unlisted` for the rest
    (calls above all). -/
inductive OpId where
  | add | sub | mul | and | or | xor | shl | lshr | ashr | icmp
  | udiv | sdiv | urem | srem
  | fadd | fsub | fmul | fdiv | frem | fneg | fcmp | select
  | zext | sext | trunc | bitcast | intToPtr | ptrToInt
  | fpExt | fpTrunc | siToFp | uiToFp | fpToSi | fpToUi
  | getElementPtr | insertValue | extractValue
  | constant | undef | poison | addressOf | cstr
  | alloca | load | store
  | br | condBr | ret | unreachable
  | unlisted (name : Nat)
  deriving DecidableEq

inductive GepIndex where
  | constant (c : Nat)
  | value (v : Value)
  deriving DecidableEq

/-- A branch target with the arguments for its parameters. -/
structure Successor where
  dest : Nat
  args : List Value
  deriving DecidableEq

inductive Op where
  | alloca (result : Value) (elemTy : Ty) (count : Value)
  | gep (result base : Value) (srcElemTy : Ty) (indices : List GepIndex)
  | bitcast (result arg : Value)
  | load (result address : Value)
  | store (value address : Value)
  | generic (id : OpId) (attrs : Nat) (results operands : List Value) (succs : List Successor)
  deriving DecidableEq

namespace GepIndex

def operands : GepIndex → List Value
  | .constant _ => []
  | .value v => [v]

end GepIndex

namespace Op

def opid : Op → OpId
  | .alloca .. => .alloca
  | .gep .. => .getElementPtr
  | .bitcast .. => .bitcast
  | .load .. => .load
  | .store .. => .store
  | .generic id .. => id

def results : Op → List Value
  | .alloca r _ _ => [r]
  | .gep r _ _ _ => [r]
  | .bitcast r _ => [r]
  | .load r _ => [r]
  | .store .. => []
  | .generic _ _ rs _ _ => rs

/-- The operands, branch arguments included. -/
def operands : Op → List Value
  | .alloca _ _ count => [count]
  | .gep _ base _ indices => base :: indices.flatMap GepIndex.operands
  | .bitcast _ arg => [arg]
  | .load _ address => [address]
  | .store value address => [value, address]
  | .generic _ _ _ operands succs => operands ++ succs.flatMap Successor.args

/-- Not one of the address computations and memory accesses. -/
def isGeneric : Op → Bool
  | .generic .. => true
  | _ => false

def succs : Op → List Successor
  | .generic _ _ _ _ succs => succs
  | _ => []

end Op

structure BasicBlock where
  params : List Value
  ops : List Op
  deriving DecidableEq

/-- The values a block defines. -/
def BasicBlock.defs (b : BasicBlock) : List Value := b.params ++ b.ops.flatMap Op.results

/-- A function body; block 0 is the entry. -/
structure Region where
  blocks : List BasicBlock
  deriving DecidableEq

namespace Region

def block (g : Region) (b : Nat) : BasicBlock := g.blocks.getD b ⟨[], []⟩

/-- All operations in layout order. -/
def ops (g : Region) : List Op := g.blocks.flatMap BasicBlock.ops

/-- The operation a value is a result of; none for a block parameter. -/
def definingOp (g : Region) (v : Value) : Option Op := g.ops.find? fun op => v ∈ op.results

/-- The operations that use a value, once per use. -/
def users (g : Region) (v : Value) : List Op :=
  g.ops.flatMap fun op => List.replicate (op.operands.count v) op

/-- The successors of a block's terminator, each once. -/
def succs (g : Region) (b : Nat) : List Nat :=
  match (g.block b).ops.getLast? with
  | some op => (op.succs.map Successor.dest).eraseDups
  | none => []

/-- What the verifier promises about the shape of a function. -/
structure Ssa (g : Region) : Prop where
  /-- A value is defined once, as a block parameter or a result. -/
  nodup : (g.blocks.flatMap BasicBlock.defs).Nodup
  /-- Only the last operation of a block branches. -/
  terminator : ∀ b ∈ g.blocks, ∀ op ∈ b.ops.dropLast, op.succs = []
  /-- And the last one is no memory access. -/
  ends : ∀ b ∈ g.blocks, ∀ op ∈ b.ops.getLast?, op.isGeneric = true
  /-- Branches stay inside the function. -/
  target : ∀ op ∈ g.ops, ∀ s ∈ op.succs, s.dest < g.blocks.length

instance (g : Region) : Decidable g.Ssa :=
  decidable_of_iff
    ((g.blocks.flatMap BasicBlock.defs).Nodup ∧
      (∀ b ∈ g.blocks, ∀ op ∈ b.ops.dropLast, op.succs = []) ∧
      (∀ b ∈ g.blocks, ∀ op ∈ b.ops.getLast?, op.isGeneric = true) ∧
      (∀ op ∈ g.ops, ∀ s ∈ op.succs, s.dest < g.blocks.length))
    ⟨fun ⟨h1, h2, h3, h4⟩ => ⟨h1, h2, h3, h4⟩, fun ⟨h1, h2, h3, h4⟩ => ⟨h1, h2, h3, h4⟩⟩

/-- An address computed by the operation comes after the one it is computed
    from. -/
def ascends : Op → Bool
  | .gep r base _ _ => base.id < r.id
  | .bitcast r arg => arg.id < r.id
  | _ => true

/-- Address computations are not circular, either: values are numbered along
    them. -/
structure WellFormed (g : Region) : Prop extends g.Ssa where
  chain : ∀ op ∈ g.ops, ascends op = true

instance (g : Region) : Decidable g.WellFormed :=
  decidable_of_iff (g.Ssa ∧ ∀ op ∈ g.ops, ascends op = true)
    ⟨fun ⟨h1, h2⟩ => ⟨h1, h2⟩, fun h => ⟨h.toSsa, h.chain⟩⟩

end Region

/-- A function in SSA form. -/
structure Function where
  region : Region
  wf : region.WellFormed

namespace Region

variable {g : Region}

theorem block_mem {b : Nat} (h : b < g.blocks.length) : g.block b ∈ g.blocks := by
  unfold block
  rw [List.getD_eq_getElem?_getD, List.getElem?_eq_getElem h]
  exact List.getElem_mem h

theorem block_ops_eq_nil {b : Nat} (h : ¬ b < g.blocks.length) : (g.block b).ops = [] := by
  unfold block
  rw [List.getD_eq_getElem?_getD, List.getElem?_eq_none (Nat.not_lt.mp h)]
  rfl

theorem block_params_eq_nil {b : Nat} (h : ¬ b < g.blocks.length) : (g.block b).params = [] := by
  unfold block
  rw [List.getD_eq_getElem?_getD, List.getElem?_eq_none (Nat.not_lt.mp h)]
  rfl

theorem mem_ops_of_block {b : Nat} {op : Op} (h : op ∈ (g.block b).ops) : op ∈ g.ops := by
  by_cases hb : b < g.blocks.length
  · exact List.mem_flatMap.mpr ⟨g.block b, block_mem hb, h⟩
  · rw [block_ops_eq_nil hb] at h
    exact absurd h List.not_mem_nil

theorem definingOp_mem {v : Value} {op : Op} (h : g.definingOp v = some op) :
    op ∈ g.ops ∧ v ∈ op.results := by
  unfold definingOp at h
  exact ⟨List.mem_of_find?_eq_some h, by simpa using List.find?_some h⟩

theorem mem_users {v : Value} {op : Op} : op ∈ g.users v ↔ op ∈ g.ops ∧ v ∈ op.operands := by
  unfold users
  rw [List.mem_flatMap]
  constructor
  · rintro ⟨op', hop', h⟩
    obtain ⟨hcount, rfl⟩ := List.mem_replicate.mp h
    exact ⟨hop', List.count_pos_iff.mp (Nat.pos_of_ne_zero hcount)⟩
  · rintro ⟨hop, hv⟩
    exact ⟨op, hop, List.mem_replicate.mpr ⟨(List.count_pos_iff.mpr hv).ne', rfl⟩⟩

/-- Lists without duplicates come from one element each. -/
theorem eq_of_mem_flatMap {α β : Type*} {l : List α} {f : α → List β} (h : (l.flatMap f).Nodup)
    {a b : α} (ha : a ∈ l) (hb : b ∈ l) {x : β} (hxa : x ∈ f a) (hxb : x ∈ f b) : a = b := by
  obtain ⟨-, hdisjoint⟩ := List.nodup_flatMap.mp h
  by_contra hne
  have : Std.Symm (Function.onFun List.Disjoint f) := ⟨fun _ _ hd _ hb ha => hd ha hb⟩
  exact hdisjoint.forall ha hb hne hxa hxb

/-- A value is a result of one operation. -/
theorem Ssa.op_unique (h : g.Ssa) {op op' : Op} (hop : op ∈ g.ops) (hop' : op' ∈ g.ops) {v : Value}
    (hv : v ∈ op.results) (hv' : v ∈ op'.results) : op = op' := by
  obtain ⟨b, hb, hop⟩ := List.mem_flatMap.mp hop
  obtain ⟨b', hb', hop'⟩ := List.mem_flatMap.mp hop'
  obtain rfl : b = b' := eq_of_mem_flatMap h.nodup hb hb' (x := v)
    (List.mem_append_right _ (List.mem_flatMap.mpr ⟨op, hop, hv⟩))
    (List.mem_append_right _ (List.mem_flatMap.mpr ⟨op', hop', hv'⟩))
  have hnodup := (List.nodup_append.mp ((List.nodup_flatMap.mp h.nodup).1 b hb)).2.1
  exact eq_of_mem_flatMap hnodup hop hop' hv hv'

theorem Ssa.unique (h : g.Ssa) {op : Op} (hop : op ∈ g.ops) {v : Value} (hv : v ∈ op.results) :
    g.definingOp v = some op := by
  cases hdef : g.definingOp v with
  | none =>
    have := List.find?_eq_none.mp hdef op hop
    simp [hv] at this
  | some op' =>
    obtain ⟨hop', hv'⟩ := definingOp_mem hdef
    rw [h.op_unique hop' hop hv' hv]

/-- A block parameter is not a result. -/
theorem Ssa.params (h : g.Ssa) {b : BasicBlock} (hb : b ∈ g.blocks) {v : Value}
    (hv : v ∈ b.params) : g.definingOp v = none := by
  cases hdef : g.definingOp v with
  | none => rfl
  | some op =>
    obtain ⟨hop, hres⟩ := definingOp_mem hdef
    obtain ⟨b', hb', hop⟩ := List.mem_flatMap.mp hop
    have hres' : v ∈ b'.ops.flatMap Op.results := List.mem_flatMap.mpr ⟨op, hop, hres⟩
    obtain rfl : b = b' := eq_of_mem_flatMap h.nodup hb hb' (List.mem_append_left _ hv)
      (List.mem_append_right _ hres')
    have hdisjoint := (List.nodup_append.mp ((List.nodup_flatMap.mp h.nodup).1 b hb)).2.2
    exact absurd rfl (hdisjoint v hv v hres')

/-- An operation in the middle of a block does not branch. -/
theorem Ssa.succs_nil (h : g.Ssa) {b : Nat} {before after : List Op} {op : Op}
    (hops : (g.block b).ops = before ++ op :: after) (hafter : after ≠ []) : op.succs = [] := by
  by_cases hb : b < g.blocks.length
  · apply h.terminator _ (block_mem hb)
    rw [hops, List.dropLast_append_of_ne_nil (by simp), List.dropLast_cons_of_ne_nil hafter]
    simp
  · rw [block_ops_eq_nil hb] at hops
    simp at hops

/-- The blocks control may go to are in the function. -/
theorem Ssa.succs_lt (h : g.Ssa) {b s : Nat} (hs : s ∈ g.succs b) :
    s < g.blocks.length := by
  unfold succs at hs
  split at hs
  · rename_i op hop
    obtain ⟨t, ht, rfl⟩ := List.mem_map.mp (List.mem_eraseDups.mp hs)
    exact h.target op (mem_ops_of_block (List.mem_of_getLast? hop)) t ht
  · exact absurd hs List.not_mem_nil

/-- The successors of a block are the targets of its last operation. -/
theorem mem_succs_last {b : Nat} {before : List Op} {op : Op}
    (hops : (g.block b).ops = before ++ [op]) (s : Nat) :
    s ∈ g.succs b ↔ ∃ t ∈ op.succs, t.dest = s := by
  unfold succs
  simp [hops]

end Region

end Crabbit.Llvm
