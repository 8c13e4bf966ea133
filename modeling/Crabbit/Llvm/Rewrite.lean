/-
  Crabbit.Llvm.Rewrite

  Rewriting the operations of a function in place: uses of some values are
  replaced by others, and operations are kept, erased, or, for loads whose
  value is at hand, turned into a cast of it.

  A cast inserted for a load takes over the name of the load's result, whose
  uses all become uses of the cast.
-/

import Crabbit.Llvm.Availability

namespace Crabbit.Llvm

/-! ## Rewriting -/

def GepIndex.subst (repl : Value → Value) : GepIndex → GepIndex
  | .constant c => .constant c
  | .value v => .value (repl v)

def Successor.subst (repl : Value → Value) (t : Successor) : Successor :=
  ⟨t.dest, t.args.map repl⟩

/-- The operation with its operands replaced. -/
def Op.subst (repl : Value → Value) : Op → Op
  | .alloca r ty count => .alloca r ty (repl count)
  | .gep r base ty indices => .gep r (repl base) ty (indices.map (GepIndex.subst repl))
  | .bitcast r arg => .bitcast r (repl arg)
  | .load r address => .load r (repl address)
  | .store value address => .store (repl value) (repl address)
  | .generic id attrs results operands succs =>
    .generic id attrs results (operands.map repl) (succs.map (Successor.subst repl))

/-- What becomes of an operation. -/
inductive Action where
  | keep
  | drop
  /-- A load becomes a cast of the value. -/
  | copy (value : Value)
  deriving DecidableEq

def Action.apply : Op → Action → Option Op
  | op, .keep => some op
  | _, .drop => none
  | .load r _, .copy value => some (.bitcast r value)
  | op, .copy _ => some op

/-- Operations together with what becomes of them. -/
abbrev Annotated := List (Op × Action)

def rewriteOps (repl : Value → Value) (ops : Annotated) : List Op :=
  ops.filterMap fun (op, action) => (action.apply op).map (Op.subst repl)

def Region.rewrite (g : Region) (repl : Value → Value) (ops : Nat → Annotated) : Region :=
  ⟨g.blocks.mapIdx fun b block => ⟨block.params, rewriteOps repl (ops b)⟩⟩

/-! ## What rewriting leaves alone -/

variable {repl : Value → Value}

@[simp]
theorem Op.subst_results (op : Op) : (op.subst repl).results = op.results := by
  cases op <;> rfl

@[simp]
theorem Op.subst_opid (op : Op) : (op.subst repl).opid = op.opid := by
  cases op <;> rfl

@[simp]
theorem Op.subst_isGeneric (op : Op) : (op.subst repl).isGeneric = op.isGeneric := by
  cases op <;> rfl

theorem Op.subst_succs (op : Op) : (op.subst repl).succs = op.succs.map (Successor.subst repl) := by
  cases op <;> rfl

theorem Op.subst_dests (op : Op) :
    (op.subst repl).succs.map Successor.dest = op.succs.map Successor.dest := by
  rw [Op.subst_succs, List.map_map]
  rfl

theorem Op.subst_operands (op : Op) : (op.subst repl).operands = op.operands.map repl := by
  have hindices : ∀ indices : List GepIndex,
      (indices.map (GepIndex.subst repl)).flatMap GepIndex.operands
        = (indices.flatMap GepIndex.operands).map repl := by
    intro indices
    induction indices with
    | nil => rfl
    | cons i indices ih =>
      rw [List.map_cons, List.flatMap_cons, ih, List.flatMap_cons, List.map_append]
      cases i <;> rfl
  have hsuccs : ∀ succs : List Successor,
      (succs.map (Successor.subst repl)).flatMap Successor.args
        = (succs.flatMap Successor.args).map repl := by
    intro succs
    induction succs with
    | nil => rfl
    | cons t succs ih =>
      rw [List.map_cons, List.flatMap_cons, ih, List.flatMap_cons, List.map_append]
      rfl
  cases op with
  | gep r base ty indices => exact congrArg (repl base :: ·) (hindices indices)
  | generic id attrs results operands succs =>
    show operands.map repl ++ _ = (operands ++ _).map repl
    rw [List.map_append, hsuccs]
  | _ => rfl

theorem Op.subst_subst (repl' : Value → Value) (op : Op) :
    (op.subst repl).subst repl' = op.subst (repl' ∘ repl) := by
  cases op with
  | gep r base ty indices =>
    show Op.gep r _ ty ((indices.map _).map _) = Op.gep r _ ty (indices.map _)
    rw [List.map_map]
    congr 1
    apply List.map_congr_left
    intro i _
    cases i <;> rfl
  | generic id attrs results operands succs =>
    show Op.generic id attrs results ((operands.map _).map _) ((succs.map _).map _) = _
    rw [List.map_map, List.map_map]
    congr 1
    apply List.map_congr_left
    intro t _
    show Successor.mk t.dest ((t.args.map _).map _) = Successor.mk t.dest (t.args.map _)
    rw [List.map_map]
  | _ => rfl

/-- An operation that uses nothing that is replaced stays as it is. -/
theorem Op.subst_of_agree {op : Op} (h : ∀ x ∈ op.operands, repl x = x) : op.subst repl = op := by
  have hlist : ∀ xs : List Value, (∀ x ∈ xs, repl x = x) → xs.map repl = xs := by
    intro xs hxs
    conv_rhs => rw [← List.map_id xs]
    exact List.map_congr_left hxs
  cases op with
  | gep r base ty indices =>
    obtain ⟨hbase, hindices⟩ := List.forall_mem_cons.mp h
    have : indices.map (GepIndex.subst repl) = indices := by
      conv_rhs => rw [← List.map_id indices]
      apply List.map_congr_left
      intro i hi
      cases i with
      | constant c => rfl
      | value v =>
        exact congrArg GepIndex.value
          (hindices v (List.mem_flatMap.mpr ⟨_, hi, List.mem_singleton.mpr rfl⟩))
    show Op.gep r (repl base) ty (indices.map _) = _
    rw [this, hbase]
  | generic id attrs results operands succs =>
    obtain ⟨hoperands, hargs⟩ := List.forall_mem_append.mp h
    have : succs.map (Successor.subst repl) = succs := by
      conv_rhs => rw [← List.map_id succs]
      apply List.map_congr_left
      intro t ht
      show Successor.mk t.dest (t.args.map repl) = t
      rw [hlist t.args fun x hx => hargs x (List.mem_flatMap.mpr ⟨t, ht, hx⟩)]
    show Op.generic id attrs results (operands.map repl) (succs.map _) = _
    rw [this, hlist _ hoperands]
  | _ => simp_all [Op.subst, Op.operands]

theorem Op.subst_id (op : Op) : op.subst id = op := Op.subst_of_agree fun _ _ => rfl

theorem Action.apply_results {op op' : Op} {action : Action} (h : action.apply op = some op') :
    op'.results = op.results := by
  cases action with
  | keep =>
    cases h
    rfl
  | drop => cases h
  | copy value => cases op <;> cases h <;> rfl

theorem Action.apply_succs {op op' : Op} {action : Action} (h : action.apply op = some op') :
    op'.succs = op.succs := by
  cases action with
  | keep =>
    cases h
    rfl
  | drop => cases h
  | copy value => cases op <;> cases h <;> rfl

theorem rewriteOps_append (before after : Annotated) :
    rewriteOps repl (before ++ after) = rewriteOps repl before ++ rewriteOps repl after :=
  List.filterMap_append

theorem mem_rewriteOps {ops : Annotated} {op' : Op} :
    op' ∈ rewriteOps repl ops ↔ ∃ op action op₁, (op, action) ∈ ops ∧
      action.apply op = some op₁ ∧ op' = op₁.subst repl := by
  unfold rewriteOps
  rw [List.mem_filterMap]
  constructor
  · rintro ⟨⟨op, action⟩, hmem, h⟩
    obtain ⟨op₁, h₁, h₂⟩ := Option.map_eq_some_iff.mp h
    exact ⟨op, action, op₁, hmem, h₁, h₂.symm⟩
  · rintro ⟨op, action, op₁, hmem, h₁, rfl⟩
    exact ⟨(op, action), hmem, by simp [h₁]⟩

/-- The results of the rewritten operations are results of the old ones, in
    order. -/
theorem rewriteOps_results (ops : Annotated) :
    ((rewriteOps repl ops).flatMap Op.results).Sublist ((ops.map Prod.fst).flatMap Op.results) := by
  induction ops with
  | nil => exact List.Sublist.refl _
  | cons entry ops ih =>
    obtain ⟨op, action⟩ := entry
    rw [List.map_cons, List.flatMap_cons]
    unfold rewriteOps at *
    rw [List.filterMap_cons]
    cases h : action.apply op with
    | none => simpa [h] using ih.trans (List.sublist_append_right _ _)
    | some op₁ =>
      simp only [h, Option.map_some, List.flatMap_cons, Op.subst_results, Action.apply_results h]
      exact List.Sublist.append_left ih _

namespace Region

variable {g : Region} {ops : Nat → Annotated}

theorem rewrite_length : (g.rewrite repl ops).blocks.length = g.blocks.length := by
  unfold rewrite
  rw [List.length_mapIdx]

/-- The blocks of the rewritten function. -/
theorem rewrite_block (hops : ∀ b, (ops b).map Prod.fst = (g.block b).ops) (b : Nat) :
    (g.rewrite repl ops).block b = ⟨(g.block b).params, rewriteOps repl (ops b)⟩ := by
  unfold rewrite block
  simp only [List.getD_eq_getElem?_getD, List.getElem?_mapIdx]
  by_cases hb : b < g.blocks.length
  · rw [List.getElem?_eq_getElem hb]
    rfl
  · have hnil : (ops b) = [] := by
      have := hops b
      rw [block_ops_eq_nil hb] at this
      exact List.map_eq_nil_iff.mp this
    rw [List.getElem?_eq_none (Nat.not_lt.mp hb), hnil]
    rfl

/-- Functions whose blocks define less define less. -/
theorem flatMap_defs_sublist {g' : Region} (hlen : g'.blocks.length = g.blocks.length)
    (h : ∀ b, (g'.block b).defs.Sublist (g.block b).defs) :
    (g'.blocks.flatMap BasicBlock.defs).Sublist (g.blocks.flatMap BasicBlock.defs) := by
  have hgen : ∀ (l l' : List BasicBlock), l.length = l'.length →
      (∀ i (hi : i < l.length) (hi' : i < l'.length), (l[i]).defs.Sublist (l'[i]).defs) →
      (l.flatMap BasicBlock.defs).Sublist (l'.flatMap BasicBlock.defs) := by
    intro l
    induction l with
    | nil => exact fun _ _ _ => List.nil_sublist _
    | cons block l ih =>
      intro l' hlen hsub
      cases l' with
      | nil => cases hlen
      | cons block' l' =>
        rw [List.flatMap_cons, List.flatMap_cons]
        apply List.Sublist.append
        · exact hsub 0 (Nat.succ_pos _) (Nat.succ_pos _)
        · apply ih _ (Nat.succ.inj hlen)
          intro i hi hi'
          exact hsub (i + 1) (Nat.succ_lt_succ hi) (Nat.succ_lt_succ hi')
  apply hgen _ _ hlen
  intro i hi hi'
  rw [← block_eq_getElem hi, ← block_eq_getElem hi']
  exact h i

/-! ## The shape of the rewritten function -/

/-- Every operation of the function is annotated, and the last one of a block
    stays. -/
structure Annotates (g : Region) (ops : Nat → Annotated) : Prop where
  ops_eq : ∀ b, (ops b).map Prod.fst = (g.block b).ops
  last : ∀ {b done op action}, ops b = done ++ [(op, action)] → action = .keep

namespace Annotates

theorem block_eq (h : g.Annotates ops) (b : Nat) :
    (g.rewrite repl ops).block b = ⟨(g.block b).params, rewriteOps repl (ops b)⟩ :=
  rewrite_block h.ops_eq b

/-- An annotated operation is one of the block, at the same place. -/
theorem split (h : g.Annotates ops) {b : Nat} {done rest : Annotated} {op : Op} {action : Action}
    (hops : ops b = done ++ (op, action) :: rest) :
    (g.block b).ops = done.map Prod.fst ++ op :: rest.map Prod.fst := by
  rw [← h.ops_eq, hops, List.map_append, List.map_cons]

/-- A block ends as before. -/
theorem rewriteOps_last (h : g.Annotates ops) (repl : Value → Value) (b : Nat) :
    ((g.block b).ops = [] ∧ rewriteOps repl (ops b) = []) ∨
    ∃ done op, ops b = done ++ [(op, .keep)] ∧ (g.block b).ops = done.map Prod.fst ++ [op] ∧
      rewriteOps repl (ops b) = rewriteOps repl done ++ [op.subst repl] := by
  rcases List.eq_nil_or_concat (ops b) with hnil | ⟨done, ⟨op, action⟩, hops⟩
  · left
    rw [← h.ops_eq, hnil]
    exact ⟨rfl, rfl⟩
  · right
    rw [List.concat_eq_append] at hops
    obtain rfl := h.last hops
    refine ⟨done, op, hops, ?_, ?_⟩
    · have hsplit := h.split hops
      rwa [List.map_nil] at hsplit
    · rw [hops, rewriteOps_append]
      rfl

theorem succs_eq (h : g.Annotates ops) (b : Nat) : (g.rewrite repl ops).succs b = g.succs b := by
  unfold succs
  rw [h.block_eq]
  rcases h.rewriteOps_last repl b with ⟨hnil, hnil'⟩ | ⟨done, op, -, hops, hops'⟩
  · simp only [hnil, hnil']
  · simp only [hops, hops', List.getLast?_append, List.getLast?_singleton, Option.some_or,
      Op.subst_dests]

theorem edge_eq (h : g.Annotates ops) : (g.rewrite repl ops).Edge = g.Edge := by
  funext b d
  unfold Edge
  rw [h.succs_eq]

/-- An operation of the rewritten function comes from one of the old. -/
theorem mem_ops (h : g.Annotates ops) {op' : Op} (hop' : op' ∈ (g.rewrite repl ops).ops) :
    ∃ b done op action rest op₁, ops b = done ++ (op, action) :: rest ∧ op ∈ g.ops ∧
      action.apply op = some op₁ ∧ op' = op₁.subst repl := by
  obtain ⟨block, hblock, hop'⟩ := List.mem_flatMap.mp hop'
  obtain ⟨b, hb, rfl⟩ := List.getElem_of_mem hblock
  rw [← block_eq_getElem hb, h.block_eq] at hop'
  obtain ⟨op, action, op₁, hmem, happly, rfl⟩ := mem_rewriteOps.mp hop'
  obtain ⟨done, rest, hops⟩ := List.append_of_mem hmem
  refine ⟨b, done, op, action, rest, op₁, hops, ?_, happly, rfl⟩
  apply mem_ops_of_block (b := b)
  rw [h.split hops]
  exact List.mem_append_right _ List.mem_cons_self

/-- Nothing is defined that was not, and nothing out of order. -/
theorem defs_sublist (h : g.Annotates ops) :
    ((g.rewrite repl ops).blocks.flatMap BasicBlock.defs).Sublist
      (g.blocks.flatMap BasicBlock.defs) := by
  apply flatMap_defs_sublist rewrite_length
  intro b
  rw [h.block_eq]
  apply List.Sublist.append_left
  rw [← h.ops_eq]
  exact rewriteOps_results _

theorem ssa (h : g.Annotates ops) (hssa : g.Ssa) : (g.rewrite repl ops).Ssa := by
  refine ⟨h.defs_sublist.nodup hssa.nodup, ?_, ?_, ?_⟩
  · intro block hblock op' hop'
    obtain ⟨b, hb, rfl⟩ := List.getElem_of_mem hblock
    rw [← block_eq_getElem hb, h.block_eq] at hop'
    rcases h.rewriteOps_last repl b with ⟨-, hnil⟩ | ⟨done, op, hops, hsplit, hlast⟩
    · simp only [hnil] at hop'
      exact absurd hop' List.not_mem_nil
    · simp only [hlast, List.dropLast_concat] at hop'
      obtain ⟨op₀, action, op₁, hmem, happly, rfl⟩ := mem_rewriteOps.mp hop'
      have hnone : op₀.succs = [] := by
        apply hssa.terminator _ (block_mem (rewrite_length ▸ hb))
        rw [hsplit, List.dropLast_concat]
        exact List.mem_map.mpr ⟨_, hmem, rfl⟩
      rw [Op.subst_succs, Action.apply_succs happly, hnone]
      rfl
  · intro block hblock op' hop'
    obtain ⟨b, hb, rfl⟩ := List.getElem_of_mem hblock
    rw [← block_eq_getElem hb, h.block_eq] at hop'
    rcases h.rewriteOps_last repl b with ⟨-, hnil⟩ | ⟨done, op, -, hsplit, hlast⟩
    · simp only [hnil] at hop'
      cases hop'
    · simp only [hlast, List.getLast?_append, List.getLast?_singleton, Option.some_or] at hop'
      cases hop'
      rw [Op.subst_isGeneric]
      apply hssa.ends _ (block_mem (rewrite_length ▸ hb))
      rw [hsplit, List.getLast?_append]
      rfl
  · intro op' hop' t ht
    obtain ⟨b, done, op, action, rest, op₁, -, hop, happly, rfl⟩ := h.mem_ops hop'
    rw [Op.subst_succs, Action.apply_succs happly] at ht
    obtain ⟨t₀, ht₀, rfl⟩ := List.mem_map.mp ht
    rw [rewrite_length]
    exact hssa.target op hop t₀ ht₀

end Annotates

end Region

end Crabbit.Llvm
