/-
  Crabbit.Llvm.ConstantFoldTerminates

  Folding a function body again and again (`fold_ops` of
  `passes/llvm/simplify.rs`): the rewrites of one operation feed those of
  others, and come to an end.

  Four counts go down, the first that changes deciding: the operations other
  than constants, the multiplications, the sums and products with their constant
  on the left, and the sum of the ranks of all results, a rank being above those
  of the operands.
-/

import Crabbit.Llvm.ConstantFoldSound
import Crabbit.Lib.Rewriting
import Mathlib.Data.Prod.Lex

namespace Crabbit.Llvm

open Crabbit.Lib

/-! ## Folding in a body -/

/-- The operations of a function, in the order of the source's lists, and the
    first identifier that is free. -/
structure Body where
  ops : List Operation
  next : Nat

/-- `replace_some_uses_with`, of one use. -/
def Value.replace (v old new : Value) : Value := if v = old then new else v

def ScalarOp.replaceUses (old new : Value) : ScalarOp → ScalarOp
  | .constant bits => .constant bits
  | .bin op lhs rhs => .bin op (lhs.replace old new) (rhs.replace old new)
  | .icmp predicate lhs rhs => .icmp predicate (lhs.replace old new) (rhs.replace old new)
  | .cast kind arg => .cast kind (arg.replace old new)

def Operation.replaceUses (old new : Value) (o : Operation) : Operation :=
  ⟨o.op.replaceUses old new, o.result⟩

/-- The body once `o` is folded: the emitted operations stand where it was, and
    its uses are replaced; or its operands are exchanged in place. -/
def Fold.apply (f : Fold) (before : List Operation) (o : Operation) (after : List Operation)
    (next : Nat) : Body :=
  match f.newValue next with
  | some v => ⟨(before ++ (f.emitted next ++ after)).map (·.replaceUses o.result v), next + 2⟩
  | none => ⟨before ++ ⟨o.op.swapped, o.result⟩ :: after, next⟩

/-- One `fold_op` that changes the body. -/
inductive Folds : Body → Body → Prop
  | fold {before o after next f} (h : foldOp (before ++ o :: after) o = some f) :
      Folds ⟨before ++ o :: after, next⟩ (f.apply before o after next)

/-- Definitions come before uses, in rank; no value is defined twice. -/
structure Body.WellFormed (b : Body) (rank : Value → Nat) : Prop where
  nodup : (b.ops.map (·.result)).Nodup
  result_lt : ∀ o ∈ b.ops, o.result.id < b.next
  operand_lt : ∀ o ∈ b.ops, ∀ v ∈ o.op.operands, v.id < b.next
  ranked : ∀ o ∈ b.ops, ∀ v ∈ o.op.operands, rank v < rank o.result

/-! ## What an operation is folded to -/

/-- The folds of an operation, with what is needed of them below. -/
inductive FoldKind (defs : List Operation) (o : Operation) : Fold → Prop
  | constant (ty bits) (h : ∀ b, o.op ≠ .constant b) : FoldKind defs o (.constant ty bits)
  | operand (v) (h : v ∈ o.op.operands) : FoldKind defs o (.value v)
  | inner (d v) (hd : d ∈ defs) (hop : d.result ∈ o.op.operands) (h : v ∈ d.op.operands) :
      FoldKind defs o (.value v)
  | swap (op lhs rhs) (h : o.op = .bin op lhs rhs) (hop : isAddOrMul op = true)
      (hl : (asConstOperand defs lhs).isSome) (hr : asConstOperand defs rhs = none) :
      FoldKind defs o .swap
  | reassociate (op lhs rhs d innerLhs innerRhs ty bits) (h : o.op = .bin op lhs rhs)
      (hd : d ∈ defs) (hresult : d.result = lhs) (hinner : d.op = .bin op innerLhs innerRhs)
      (hl : asConstOperand defs innerLhs = none) :
      FoldKind defs o (.withConstant ty bits op innerLhs)
  | mulToShl (lhs rhs ty bits) (h : o.op = .bin .mul lhs rhs) :
      FoldKind defs o (.withConstant ty bits .shl lhs)

section Kinds

variable {defs : List Operation} {o : Operation} {f : Fold}

theorem simplifyConstRhs_kind {op : IntBinOp} {lhs rhs : Value} {c : ConstOperand}
    (hop : o.op = .bin op lhs rhs) (h : simplifyConstRhs defs op lhs c = some f) :
    FoldKind defs o f := by
  have hmem : lhs ∈ o.op.operands := by simp [hop, ScalarOp.operands]
  rw [simplifyConstRhs] at h
  split at h
  · obtain rfl := Option.some.inj h
    exact .operand lhs hmem
  split at h
  · obtain rfl := Option.some.inj h
    exact .constant _ _ (by simp [hop])
  split at h
  · rcases hassoc : reassociate defs op lhs c with _ | g
    · rw [hassoc, Option.none_or, mulToShl] at h
      split at h
      · rename_i hmul
        obtain rfl := Option.some.inj h
        obtain ⟨rfl, -⟩ := hmul
        exact .mulToShl lhs rhs _ _ hop
      · exact absurd h (Option.some_ne_none _ ∘ Eq.symm)
    · rw [hassoc, Option.some_or, Option.some.injEq] at h
      obtain ⟨d, hd, hresult, innerLhs, innerRhs, inner, hinner, hl, -, rfl⟩ :=
        reassociate_eq_some (hassoc.trans (congrArg some h))
      exact .reassociate op lhs rhs d innerLhs innerRhs _ _ hop hd hresult hinner hl
  · exact absurd h (Option.some_ne_none _ ∘ Eq.symm)

theorem foldIntBinary_kind {op : IntBinOp} {lhs rhs : Value} (hop : o.op = .bin op lhs rhs)
    (h : foldIntBinary defs op lhs rhs = some f) : FoldKind defs o f := by
  rw [foldIntBinary] at h
  split at h
  · obtain ⟨bits, -, rfl⟩ := Option.map_eq_some_iff.mp h
    exact .constant _ _ (by simp [hop])
  · rw [simplifyPartialConst] at h
    split at h
    · rename_i hswap
      obtain rfl := Option.some.inj h
      exact .swap op lhs rhs hop hswap.1 hswap.2.1 hswap.2.2
    · obtain ⟨c, -, h⟩ := Option.bind_eq_some_iff.mp h
      split at h
      · exact absurd h (Option.some_ne_none _ ∘ Eq.symm)
      · exact simplifyConstRhs_kind hop h

theorem foldIntCast_kind {kind : IntCast} {arg : Value} {ty : Ty} (hop : o.op = .cast kind arg)
    (h : foldIntCast defs kind arg ty = some f) : FoldKind defs o f := by
  rw [foldIntCast] at h
  rcases htrunc : truncOfZext defs kind arg ty with _ | g
  · rw [htrunc, Option.none_or] at h
    obtain ⟨c, -, h⟩ := Option.bind_eq_some_iff.mp h
    obtain ⟨t, -, rfl⟩ := Option.map_eq_some_iff.mp h
    exact .constant _ _ (by simp [hop])
  · rw [htrunc, Option.some_or, Option.some.injEq] at h
    rw [h] at htrunc
    unfold truncOfZext at htrunc
    split at htrunc
    · rename_i source result hfind
      split at htrunc
      · obtain rfl := Option.some.inj htrunc
        have hresult := List.find?_some hfind
        rw [decide_eq_true_eq] at hresult
        refine .inner _ source (List.mem_of_find?_eq_some hfind) ?_ (List.mem_singleton_self _)
        rw [hop]
        exact List.mem_singleton.mpr hresult
      · exact absurd htrunc (Option.some_ne_none _ ∘ Eq.symm)
    · exact absurd htrunc (Option.some_ne_none _ ∘ Eq.symm)

theorem foldOp_kind (h : foldOp defs o = some f) : FoldKind defs o f := by
  rw [foldOp] at h
  split at h
  · rename_i predicate lhs rhs hop
    obtain ⟨l, -, h⟩ := Option.bind_eq_some_iff.mp h
    obtain ⟨r, -, rfl⟩ := Option.map_eq_some_iff.mp h
    exact .constant _ _ (by simp [hop])
  · exact foldIntBinary_kind (by assumption) h
  · exact foldIntCast_kind (by assumption) h
  · exact absurd h (Option.some_ne_none _ ∘ Eq.symm)

end Kinds

/-! ## Constants of a rewritten body -/

theorem asConstOperand_congr {defs defs' : List Operation} {v : Value}
    (h : defs.find? (fun o => o.result = v) = defs'.find? (fun o => o.result = v)) :
    asConstOperand defs v = asConstOperand defs' v := by
  unfold asConstOperand
  rw [h]

theorem asConstOperand_replaceUses (ops : List Operation) (old new v : Value) :
    asConstOperand (ops.map (·.replaceUses old new)) v = asConstOperand ops v := by
  have hresult : ((fun o : Operation => decide (o.result = v)) ∘ Operation.replaceUses old new) =
      fun o => decide (o.result = v) := rfl
  unfold asConstOperand
  rw [List.find?_map, hresult]
  rcases hfind : ops.find? (fun o => decide (o.result = v)) with _ | ⟨op, result⟩
  · rw [hfind]
    rfl
  · rw [hfind]
    cases op <;> rfl

/-- Operations that do not define a value may come and go. -/
theorem asConstOperand_splice {before mid after : List Operation} (mid' : List Operation)
    {v : Value}
    (h : ∀ o ∈ mid, o.result ≠ v) (h' : ∀ o ∈ mid', o.result ≠ v) :
    asConstOperand (before ++ (mid ++ after)) v = asConstOperand (before ++ (mid' ++ after)) v := by
  have hnone : ∀ {l : List Operation}, (∀ o ∈ l, o.result ≠ v) →
      l.find? (fun o => decide (o.result = v)) = none := fun hl =>
    List.find?_eq_none.mpr fun o ho hv => hl o ho (decide_eq_true_eq.mp hv)
  apply asConstOperand_congr
  rw [List.find?_append, List.find?_append, List.find?_append, List.find?_append, hnone h,
    hnone h']

/-- A value whose first definition is another operation is no constant. -/
theorem asConstOperand_eq_none {before after : List Operation} {o : Operation}
    (hbefore : ∀ e ∈ before, e.result ≠ o.result) (hop : ∀ b, o.op ≠ .constant b) :
    asConstOperand (before ++ o :: after) o.result = none := by
  have hfind : (before ++ o :: after).find? (fun e => decide (e.result = o.result)) = some o := by
    rw [List.find?_append, List.find?_eq_none.mpr, Option.none_or, List.find?_cons_of_pos]
    · exact decide_eq_true rfl
    · exact fun e he hv => hbefore e he (decide_eq_true_eq.mp hv)
  unfold asConstOperand
  rw [hfind]
  obtain ⟨op, result⟩ := o
  cases op with
  | constant b => exact absurd rfl (hop b)
  | _ => rfl

/-- An operation may be changed into another of the same result, both no
    constants. -/
theorem asConstOperand_change {before after : List Operation} {op op' : ScalarOp} {r v : Value}
    (hop : ∀ b, op ≠ .constant b) (hop' : ∀ b, op' ≠ .constant b) :
    asConstOperand (before ++ ⟨op', r⟩ :: after) v = asConstOperand (before ++ ⟨op, r⟩ :: after) v := by
  by_cases hv : r = v
  · subst hv
    by_cases hbefore : ∃ e ∈ before, e.result = r
    · obtain ⟨e, he, her⟩ := hbefore
      apply asConstOperand_congr
      rw [List.find?_append, List.find?_append]
      rcases hfind : before.find? (fun o => decide (o.result = r)) with _ | d
      · exact absurd (decide_eq_true her) (List.find?_eq_none.mp hfind e he)
      · rw [hfind, Option.some_or, Option.some_or]
    · have hne : ∀ e ∈ before, e.result ≠ r := fun e he her => hbefore ⟨e, he, her⟩
      exact (asConstOperand_eq_none (o := ⟨op', r⟩) hne hop').trans
        (asConstOperand_eq_none (o := ⟨op, r⟩) hne hop).symm
  · apply asConstOperand_congr
    rw [List.find?_append, List.find?_append,
      List.find?_cons_of_neg (by simpa using hv), List.find?_cons_of_neg (by simpa using hv)]

/-! ## A fold keeps a body well formed -/

theorem operands_replaceUses (old new : Value) (op : ScalarOp) :
    (op.replaceUses old new).operands = op.operands.map (·.replace old new) := by
  cases op <;> rfl

theorem map_result_replaceUses (old new : Value) (ops : List Operation) :
    (ops.map (·.replaceUses old new)).map (·.result) = ops.map (·.result) := by
  rw [List.map_map]
  rfl

/-- The ranks once `next` is a constant and `next + 1` an operation of rank
    `r`. -/
def rankAfter (rank : Value → Nat) (next r : Nat) (v : Value) : Nat :=
  if v.id = next then 0 else if v.id = next + 1 then r else rank v

theorem rankAfter_of_lt {rank : Value → Nat} {next r : Nat} {v : Value} (h : v.id < next) :
    rankAfter rank next r v = rank v := by
  rw [rankAfter, if_neg (by omega), if_neg (by omega)]

/-- What a fold emits can stand in place of `o`, and its value for the result. -/
structure Fold.Fits (f : Fold) (o : Operation) (next r : Nat) (rank : Value → Nat) (v : Value) :
    Prop where
  newValue : f.newValue next = some v
  nodup : ((f.emitted next).map (·.result)).Nodup
  fresh : ∀ e ∈ f.emitted next, next ≤ e.result.id ∧ e.result.id < next + 2
  operands : ∀ e ∈ f.emitted next, ∀ u ∈ e.op.operands,
    u ≠ o.result ∧ u.id < next + 2 ∧ rankAfter rank next r u < rankAfter rank next r e.result
  value : v.id < next + 2 ∧ rankAfter rank next r v ≤ rank o.result

section Step

variable {before after : List Operation} {o : Operation} {next r : Nat} {f : Fold}
  {rank : Value → Nat} {v : Value}

theorem Fold.apply_eq (h : f.newValue next = some v) :
    f.apply before o after next =
      ⟨(before ++ (f.emitted next ++ after)).map (·.replaceUses o.result v), next + 2⟩ := by
  rw [Fold.apply, h]

theorem wellFormed_apply (hwf : Body.WellFormed ⟨before ++ o :: after, next⟩ rank)
    (hfits : f.Fits o next r rank v) :
    (f.apply before o after next).WellFormed (rankAfter rank next r) := by
  have hold : ∀ {e}, e ∈ before ∨ e ∈ after → e ∈ before ++ o :: after := fun he =>
    List.mem_append.mpr (he.imp_right (List.mem_cons_of_mem _))
  have hmem : ∀ {e}, e ∈ before ++ (f.emitted next ++ after) →
      e ∈ f.emitted next ∨ e ∈ before ++ o :: after := fun he => by
    rcases List.mem_append.mp he with he | he
    · exact Or.inr (hold (Or.inl he))
    · exact (List.mem_append.mp he).imp_right fun he => hold (Or.inr he)
  rw [Fold.apply_eq hfits.newValue]
  refine ⟨?_, ?_, ?_, ?_⟩
  · rw [map_result_replaceUses, List.map_append, List.map_append]
    have hnodup := hwf.nodup
    rw [List.map_append, List.map_cons] at hnodup
    have hrest : (before.map (·.result) ++ after.map (·.result)).Nodup :=
      hnodup.sublist (List.Sublist.append_left (List.sublist_cons_self ..) _)
    refine List.nodup_append_comm.mp ?_
    rw [List.append_assoc]
    refine List.nodup_append.mpr ⟨hfits.nodup, List.nodup_append_comm.mp hrest, ?_⟩
    -- The emitted results are fresh.
    rintro x hx y hy rfl
    obtain ⟨e, he, rfl⟩ := List.mem_map.mp hx
    have hy' : e.result ∈ (before ++ o :: after).map (·.result) := by
      rw [List.map_append, List.map_cons]
      rcases List.mem_append.mp hy with hy | hy
      · exact List.mem_append_right _ (List.mem_cons_of_mem _ hy)
      · exact List.mem_append_left _ hy
    obtain ⟨d, hd, hde⟩ := List.mem_map.mp hy'
    have hlt := hwf.result_lt d hd
    rw [hde] at hlt
    exact absurd (hfits.fresh e he).1 (Nat.not_le.mpr hlt)
  · intro e' he'
    obtain ⟨e, he, rfl⟩ := List.mem_map.mp he'
    rcases hmem he with he | he
    · exact (hfits.fresh e he).2
    · exact Nat.lt_of_lt_of_le (hwf.result_lt e he) (Nat.le_add_right next 2)
  · intro e' he' u' hu'
    obtain ⟨e, he, rfl⟩ := List.mem_map.mp he'
    rw [Operation.replaceUses, operands_replaceUses] at hu'
    obtain ⟨u, hu, rfl⟩ := List.mem_map.mp hu'
    rw [Value.replace]
    split
    · exact hfits.value.1
    · rcases hmem he with he | he
      · exact (hfits.operands e he u hu).2.1
      · exact Nat.lt_of_lt_of_le (hwf.operand_lt e he u hu) (Nat.le_add_right next 2)
  · intro e' he' u' hu'
    obtain ⟨e, he, rfl⟩ := List.mem_map.mp he'
    rw [Operation.replaceUses, operands_replaceUses] at hu'
    obtain ⟨u, hu, rfl⟩ := List.mem_map.mp hu'
    show rankAfter rank next r _ < rankAfter rank next r e.result
    rcases hmem he with he | he
    · have hne := (hfits.operands e he u hu).1
      rw [Value.replace, if_neg hne]
      exact (hfits.operands e he u hu).2.2
    · have hlt := hwf.ranked e he u hu
      rw [rankAfter_of_lt (hwf.result_lt e he), Value.replace]
      split
      · rename_i heq
        exact Nat.lt_of_le_of_lt hfits.value.2 (heq ▸ hlt)
      · rwa [rankAfter_of_lt (hwf.operand_lt e he u hu)]

theorem wellFormed_swap (hwf : Body.WellFormed ⟨before ++ o :: after, next⟩ rank) :
    (Fold.swap.apply before o after next).WellFormed rank := by
  have hoperands : ∀ u ∈ o.op.swapped.operands, u ∈ o.op.operands := by
    cases o.op <;> simp [ScalarOp.swapped, ScalarOp.operands, or_comm]
  have hmem : ∀ {e : Operation}, e ∈ before ++ ⟨o.op.swapped, o.result⟩ :: after →
      ∃ d ∈ before ++ o :: after, e.result = d.result ∧ ∀ u ∈ e.op.operands, u ∈ d.op.operands := by
    intro e he
    rcases List.mem_append.mp he with he | he
    · exact ⟨e, List.mem_append_left _ he, rfl, fun _ => id⟩
    rcases List.mem_cons.mp he with rfl | he
    · exact ⟨o, List.mem_append_right _ (List.mem_cons_self ..), rfl, hoperands⟩
    · exact ⟨e, List.mem_append_right _ (List.mem_cons_of_mem _ he), rfl, fun _ => id⟩
  refine ⟨?_, fun e he => ?_, fun e he u hu => ?_, fun e he u hu => ?_⟩
  · have hnodup := hwf.nodup
    rw [List.map_append, List.map_cons] at hnodup
    rw [Fold.apply, Fold.newValue, List.map_append, List.map_cons]
    exact hnodup
  · obtain ⟨d, hd, hresult, -⟩ := hmem he
    exact hresult ▸ hwf.result_lt d hd
  · obtain ⟨d, hd, -, hops⟩ := hmem he
    exact hwf.operand_lt d hd u (hops u hu)
  · obtain ⟨d, hd, hresult, hops⟩ := hmem he
    exact hresult ▸ hwf.ranked d hd u (hops u hu)

end Step

/-! ## The measure -/

def Operation.isRewritable (o : Operation) : Bool :=
  match o.op with
  | .constant _ => false
  | _ => true

def Operation.isMul (o : Operation) : Bool :=
  match o.op with
  | .bin .mul _ _ => true
  | _ => false

/-- A sum or product with its one constant on the left. -/
def Operation.isSwappable (defs : List Operation) (o : Operation) : Bool :=
  match o.op with
  | .bin op lhs rhs =>
    isAddOrMul op && (asConstOperand defs lhs).isSome && (asConstOperand defs rhs).isNone
  | _ => false

namespace Body

def rewritable (b : Body) : Nat := b.ops.countP Operation.isRewritable

def muls (b : Body) : Nat := b.ops.countP Operation.isMul

def swappable (b : Body) : Nat := b.ops.countP (Operation.isSwappable b.ops)

def ranks (b : Body) (rank : Value → Nat) : Nat := (b.ops.map fun o => rank o.result).sum

/-- The four counts. -/
def measure (b : Body) (rank : Value → Nat) : Nat × Nat × Nat × Nat :=
  (b.rewritable, b.muls, b.swappable, b.ranks rank)

/-- The first count that changes decides. -/
def Below : Nat × Nat × Nat × Nat → Nat × Nat × Nat × Nat → Prop :=
  Prod.Lex (· < ·) (Prod.Lex (· < ·) (Prod.Lex (· < ·) (· < ·)))

theorem below_wf : WellFounded Below :=
  Nat.lt_wfRel.wf.prod_lex (Nat.lt_wfRel.wf.prod_lex (Nat.lt_wfRel.wf.prod_lex Nat.lt_wfRel.wf))

variable {b b' : Body} {rank rank' : Value → Nat}

theorem below_of_rewritable (h : b'.rewritable < b.rewritable) :
    Below (b'.measure rank') (b.measure rank) := Prod.Lex.left _ _ h

theorem below_of_muls (h : b'.rewritable = b.rewritable) (h' : b'.muls < b.muls) :
    Below (b'.measure rank') (b.measure rank) := by
  rw [Body.measure, Body.measure, h]
  exact Prod.Lex.right _ (Prod.Lex.left _ _ h')

theorem below_of_swappable (h : b'.rewritable = b.rewritable) (h' : b'.muls = b.muls)
    (hlt : b'.swappable < b.swappable) : Below (b'.measure rank') (b.measure rank) := by
  rw [Body.measure, Body.measure, h, h']
  exact Prod.Lex.right _ (Prod.Lex.right _ (Prod.Lex.left _ _ hlt))

theorem below_of_ranks (h : b'.rewritable = b.rewritable) (h' : b'.muls = b.muls)
    (hle : b'.swappable ≤ b.swappable) (hlt : b'.ranks rank' < b.ranks rank) :
    Below (b'.measure rank') (b.measure rank) := by
  rcases Nat.lt_or_eq_of_le hle with hless | heq
  · exact below_of_swappable h h' hless
  · rw [Body.measure, Body.measure, h, h', heq]
    exact Prod.Lex.right _ (Prod.Lex.right _ (Prod.Lex.right _ hlt))

end Body

theorem isRewritable_replaceUses (old new : Value) (o : Operation) :
    (o.replaceUses old new).isRewritable = o.isRewritable := by
  obtain ⟨op, result⟩ := o
  cases op <;> rfl

theorem isMul_replaceUses (old new : Value) (o : Operation) :
    (o.replaceUses old new).isMul = o.isMul := by
  obtain ⟨op, result⟩ := o
  cases op with
  | bin op => cases op <;> rfl
  | _ => rfl

section Counts

variable {before after : List Operation} {o : Operation} {next r : Nat} {f : Fold}
  {rank : Value → Nat} {v : Value}

/-- What replacing uses does not touch is counted where it stands. -/
theorem countP_apply {p : Operation → Bool} (hp : ∀ old new o, p (o.replaceUses old new) = p o)
    (h : f.newValue next = some v) :
    (f.apply before o after next).ops.countP p =
      before.countP p + ((f.emitted next).countP p + after.countP p) := by
  rw [Fold.apply_eq h, List.countP_map, List.countP_congr (q := p), List.countP_append,
    List.countP_append]
  intro e _
  rw [Function.comp_apply, hp]

theorem countP_body (p : Operation → Bool) :
    (before ++ o :: after).countP p = before.countP p + ((if p o then 1 else 0) + after.countP p) := by
  rw [List.countP_append, List.countP_cons, Nat.add_comm (after.countP p)]

/-- Without a fresh operation there is one less to rewrite. -/
theorem rewritable_apply_lt (ho : o.isRewritable = true) (h : f.newValue next = some v)
    (hemitted : (f.emitted next).countP Operation.isRewritable = 0) :
    (f.apply before o after next).rewritable < Body.rewritable ⟨before ++ o :: after, next⟩ := by
  rw [Body.rewritable, Body.rewritable, countP_apply isRewritable_replaceUses h, countP_body, ho,
    hemitted, if_pos rfl]
  omega

/-- The value of a fresh operation, on a value of rank below `r`. -/
theorem Fold.withConstant_fits {ty : IntegerType} {bits : Nat} {op : IntBinOp} {l : Value}
    (ho : o.result.id < next) (hl : l.id < next) (hne : l ≠ o.result) (hlr : rank l < r)
    (hr : r ≤ rank o.result) :
    (Fold.withConstant ty bits op l).Fits o next r rank ⟨next + 1, l.ty⟩ := by
  have hconst : rankAfter rank next r ⟨next, ty.ty⟩ = 0 := if_pos rfl
  have hnew : rankAfter rank next r ⟨next + 1, l.ty⟩ = r := by
    rw [rankAfter, if_neg (Nat.succ_ne_self next), if_pos rfl]
  refine ⟨rfl, ?_, fun e he => ?_, fun e he u hu => ?_, Nat.lt_add_one _, le_of_eq_of_le hnew hr⟩
  · simp [Fold.emitted]
  · rcases List.mem_cons.mp he with rfl | he
    · exact ⟨Nat.le_refl _, Nat.lt_add_of_pos_right (by decide)⟩
    · obtain rfl := List.mem_singleton.mp he
      exact ⟨Nat.le_succ _, Nat.lt_add_one _⟩
  · rcases List.mem_cons.mp he with rfl | he
    · exact absurd hu List.not_mem_nil
    · obtain rfl := List.mem_singleton.mp he
      rcases List.mem_cons.mp hu with rfl | hu
      · refine ⟨hne, Nat.lt_add_right 2 hl, ?_⟩
        rw [hnew, rankAfter_of_lt hl]
        exact hlr
      · obtain rfl := List.mem_singleton.mp hu
        refine ⟨fun heq => ?_, Nat.lt_add_of_pos_right (by decide), ?_⟩
        · rw [← heq] at ho
          exact absurd ho (Nat.lt_irrefl next)
        · rw [hnew, hconst]
          exact Nat.zero_lt_of_lt hlr

/-- The value of a fresh constant. -/
theorem Fold.constant_fits {ty : IntegerType} {bits : Nat} :
    (Fold.constant ty bits).Fits o next r rank ⟨next, ty.ty⟩ := by
  have hconst : rankAfter rank next r ⟨next, ty.ty⟩ = 0 := if_pos rfl
  refine ⟨rfl, List.nodup_singleton _, fun e he => ?_, fun e he u hu => ?_,
    Nat.lt_add_of_pos_right (by decide), le_of_eq_of_le hconst (Nat.zero_le _)⟩
  · obtain rfl := List.mem_singleton.mp he
    exact ⟨Nat.le_refl _, Nat.lt_add_of_pos_right (by decide)⟩
  · obtain rfl := List.mem_singleton.mp he
    exact absurd hu List.not_mem_nil

/-- A value there was. -/
theorem Fold.value_fits (hv : v.id < next) (hrank : rank v < rank o.result) :
    (Fold.value v).Fits o next r rank v := by
  refine ⟨rfl, List.nodup_nil, fun e he => absurd he List.not_mem_nil,
    fun e he => absurd he List.not_mem_nil, Nat.lt_add_right 2 hv, ?_⟩
  rw [rankAfter_of_lt hv]
  exact Nat.le_of_lt hrank

/-- What is constant stays so under a fold to a fresh operation. -/
theorem asConstOperand_apply (hwf : Body.WellFormed ⟨before ++ o :: after, next⟩ rank)
    (ho : o.isRewritable = true) {ty : IntegerType} {bits : Nat} {op : IntBinOp} {l u : Value}
    (hu : u.id < next) :
    asConstOperand ((Fold.withConstant ty bits op l).apply before o after next).ops
        (u.replace o.result ⟨next + 1, l.ty⟩) = asConstOperand (before ++ o :: after) u := by
  have hop : ∀ b, o.op ≠ .constant b := fun b hb => by
    rw [Operation.isRewritable, hb] at ho
    exact absurd ho Bool.noConfusion
  have hbefore : ∀ e ∈ before, e.result.id < next := fun e he =>
    hwf.result_lt e (List.mem_append_left _ he)
  rw [Fold.apply_eq rfl, asConstOperand_replaceUses, Value.replace]
  split
  case isTrue heq =>
    have hnodup := hwf.nodup
    rw [List.map_append, List.map_cons] at hnodup
    have hold : asConstOperand (before ++ o :: after) o.result = none :=
      asConstOperand_eq_none (fun e he heq' => (List.nodup_append.mp hnodup).2.2 e.result
        (List.mem_map_of_mem he) o.result (List.mem_cons_self ..) heq') hop
    have hnew : asConstOperand ((before ++ [⟨.constant bits, ⟨next, ty.ty⟩⟩]) ++
        ⟨.bin op l ⟨next, ty.ty⟩, ⟨next + 1, l.ty⟩⟩ :: after) ⟨next + 1, l.ty⟩ = none := by
      refine asConstOperand_eq_none (fun e he heq' => ?_) (fun b hb => by cases hb)
      rcases List.mem_append.mp he with he | he
      · have hlt := hbefore e he
        rw [heq'] at hlt
        exact absurd hlt (Nat.not_lt.mpr (Nat.le_succ next))
      · obtain rfl := List.mem_singleton.mp he
        exact absurd (congrArg Value.id heq') (Nat.succ_ne_self next).symm
    rw [List.append_assoc] at hnew
    rw [heq, hold]
    exact hnew
  case isFalse hne =>
    refine asConstOperand_splice [o] (fun e he heq => ?_) (fun e he heq => ?_)
    · rcases List.mem_cons.mp he with rfl | he
      · rw [← heq] at hu
        exact absurd hu (Nat.lt_irrefl next)
      · obtain rfl := List.mem_singleton.mp he
        rw [← heq] at hu
        exact absurd hu (Nat.not_lt.mpr (Nat.le_succ next))
    · obtain rfl := List.mem_singleton.mp he
      exact hne heq.symm

/-- An operation that was there is as swappable as it was. -/
theorem isSwappable_apply (hwf : Body.WellFormed ⟨before ++ o :: after, next⟩ rank)
    (ho : o.isRewritable = true) {ty : IntegerType} {bits : Nat} {op : IntBinOp} {l : Value}
    {e : Operation} (he : e ∈ before ++ o :: after) :
    (e.replaceUses o.result ⟨next + 1, l.ty⟩).isSwappable
        ((Fold.withConstant ty bits op l).apply before o after next).ops =
      e.isSwappable (before ++ o :: after) := by
  have hlt := hwf.operand_lt e he
  obtain ⟨eop, result⟩ := e
  cases eop with
  | bin op' lhs rhs =>
    have hl : lhs.id < next := hlt lhs (List.mem_cons_self ..)
    have hr : rhs.id < next := hlt rhs (List.mem_cons_of_mem _ (List.mem_cons_self ..))
    simp only [Operation.replaceUses, ScalarOp.replaceUses, Operation.isSwappable,
      asConstOperand_apply hwf ho hl, asConstOperand_apply hwf ho hr]
  | _ => rfl

/-- An operation on a value that is no constant is no candidate for swapping, so
    there are not more of them. -/
theorem swappable_apply_le (hwf : Body.WellFormed ⟨before ++ o :: after, next⟩ rank)
    (ho : o.isRewritable = true) {ty : IntegerType} {bits : Nat} {op : IntBinOp} {l : Value}
    (hl : l.id < next) (hne : l ≠ o.result)
    (hconst : asConstOperand (before ++ o :: after) l = none) :
    ((Fold.withConstant ty bits op l).apply before o after next).swappable ≤
      Body.swappable ⟨before ++ o :: after, next⟩ := by
  have hl' := @asConstOperand_apply before after o next rank hwf ho ty bits op l l hl
  rw [hconst, Value.replace, if_neg hne] at hl'
  have hswap := @isSwappable_apply before after o next rank hwf ho ty bits op l
  rw [Body.swappable, Body.swappable]
  change _ ≤ (before ++ o :: after).countP (Operation.isSwappable (before ++ o :: after))
  rw [countP_body]
  generalize hops : ((Fold.withConstant ty bits op l).apply before o after next).ops = ops at *
  rw [Fold.apply_eq rfl] at hops
  rw [← hops, List.countP_map, List.countP_append, List.countP_append, hops]
  have hsame : ∀ part : List Operation, (∀ e ∈ part, e ∈ before ++ o :: after) →
      part.countP (Operation.isSwappable ops ∘ (·.replaceUses o.result ⟨next + 1, l.ty⟩)) =
        part.countP (Operation.isSwappable (before ++ o :: after)) := fun part hpart =>
    List.countP_congr fun e he => by rw [Function.comp_apply, hswap (hpart e he)]
  have hemitted : ((Fold.withConstant ty bits op l).emitted next).countP
      (Operation.isSwappable ops ∘ (·.replaceUses o.result ⟨next + 1, l.ty⟩)) = 0 := by
    refine List.countP_eq_zero.mpr fun e he => ?_
    rcases List.mem_cons.mp he with rfl | he
    · exact Bool.false_ne_true
    · obtain rfl := List.mem_singleton.mp he
      simp [Operation.replaceUses, ScalarOp.replaceUses, Operation.isSwappable, Value.replace, hne,
        hl']
  rw [hemitted, hsame before (fun e he => List.mem_append_left _ he),
    hsame after (fun e he => List.mem_append_right _ (List.mem_cons_of_mem _ he))]
  omega

/-- An exchange of operands leaves one less to exchange. -/
theorem swappable_swap_lt {op : IntBinOp} {lhs rhs : Value} (hop : o.op = .bin op lhs rhs)
    (hkind : isAddOrMul op = true)
    (hl : (asConstOperand (before ++ o :: after) lhs).isSome)
    (hr : asConstOperand (before ++ o :: after) rhs = none) :
    (Fold.swap.apply before o after next).swappable <
      Body.swappable ⟨before ++ o :: after, next⟩ := by
  have hsame : ∀ v, asConstOperand (before ++ ⟨o.op.swapped, o.result⟩ :: after) v =
      asConstOperand (before ++ o :: after) v := fun v =>
    asConstOperand_change (fun b hb => by simp [hop] at hb)
      (fun b hb => by simp [hop, ScalarOp.swapped] at hb)
  have hswap : ∀ e : Operation,
      e.isSwappable (before ++ ⟨o.op.swapped, o.result⟩ :: after) =
        e.isSwappable (before ++ o :: after) := fun e => by
    simp only [Operation.isSwappable, hsame]
  have hold : o.isSwappable (before ++ o :: after) = true := by
    simp [Operation.isSwappable, hop, hkind, hl, hr]
  have hnew : Operation.isSwappable (before ++ o :: after) ⟨o.op.swapped, o.result⟩ = false := by
    simp [Operation.isSwappable, hop, ScalarOp.swapped, hr]
  change (before ++ ⟨o.op.swapped, o.result⟩ :: after).countP
      (Operation.isSwappable (before ++ ⟨o.op.swapped, o.result⟩ :: after)) <
    (before ++ o :: after).countP (Operation.isSwappable (before ++ o :: after))
  rw [funext hswap, countP_body, countP_body, hold, hnew]
  simp

/-- The ranks of a body once `o` is a constant and an operation of rank `r`. -/
theorem ranks_apply (hwf : Body.WellFormed ⟨before ++ o :: after, next⟩ rank)
    {ty : IntegerType} {bits : Nat} {op : IntBinOp} {l : Value} (hr : r < rank o.result) :
    ((Fold.withConstant ty bits op l).apply before o after next).ranks (rankAfter rank next r) <
      Body.ranks ⟨before ++ o :: after, next⟩ rank := by
  have hsame : ∀ part : List Operation, (∀ e ∈ part, e ∈ before ++ o :: after) →
      part.map (fun e => rankAfter rank next r e.result) = part.map (fun e => rank e.result) :=
    fun part hpart => List.map_congr_left fun e he =>
      rankAfter_of_lt (hwf.result_lt e (hpart e he))
  have hconst : rankAfter rank next r ⟨next, ty.ty⟩ = 0 := if_pos rfl
  have hnew : rankAfter rank next r ⟨next + 1, l.ty⟩ = r := by
    rw [rankAfter, if_neg (Nat.succ_ne_self next), if_pos rfl]
  have hmap : ∀ ops : List Operation, (ops.map (·.replaceUses o.result ⟨next + 1, l.ty⟩)).map
      (fun e => rankAfter rank next r e.result) = ops.map fun e => rankAfter rank next r e.result :=
    fun ops => by
      rw [List.map_map]
      rfl
  rw [Body.ranks, Body.ranks, Fold.apply_eq rfl, hmap, List.map_append, List.map_append,
    List.map_append, List.map_cons, hsame before (fun e he => List.mem_append_left _ he),
    hsame after (fun e he => List.mem_append_right _ (List.mem_cons_of_mem _ he))]
  simp only [Fold.emitted, List.map_cons, List.map_nil, List.sum_append, List.sum_cons,
    List.sum_nil, hconst, hnew]
  omega

end Counts

/-! ## Every fold goes down -/

theorem folds_below {b b' : Body} {rank : Value → Nat} (hwf : b.WellFormed rank)
    (h : Folds b b') :
    ∃ rank', b'.WellFormed rank' ∧ Body.Below (b'.measure rank') (b.measure rank) := by
  obtain ⟨hfold⟩ := h
  rename_i before o after next f
  have hmem : o ∈ before ++ o :: after := List.mem_append_right _ (List.mem_cons_self ..)
  have hresult := hwf.result_lt o hmem
  have hrewritable : ∀ {v}, v ∈ o.op.operands → o.isRewritable = true := fun hv => by
    rw [Operation.isRewritable]
    split
    · rename_i hop
      rw [hop] at hv
      exact absurd hv List.not_mem_nil
    · rfl
  -- A value of lower rank takes the place of the result.
  have hvalue : ∀ {v}, o.isRewritable = true → v.id < next → rank v < rank o.result →
      ∃ rank', ((Fold.value v).apply before o after next).WellFormed rank' ∧
        Body.Below (((Fold.value v).apply before o after next).measure rank')
          (Body.measure ⟨before ++ o :: after, next⟩ rank) := fun ho hv hrank =>
    ⟨_, wellFormed_apply hwf (Fold.value_fits (r := 0) hv hrank),
      Body.below_of_rewritable (rewritable_apply_lt ho rfl rfl)⟩
  cases foldOp_kind hfold with
  | constant ty bits hop =>
    have ho : o.isRewritable = true := by
      rw [Operation.isRewritable]
      split
      · rename_i heq
        exact absurd heq (hop _)
      · rfl
    exact ⟨_, wellFormed_apply hwf (Fold.constant_fits (r := 0)),
      Body.below_of_rewritable (rewritable_apply_lt ho rfl rfl)⟩
  | operand v hv =>
    exact hvalue (hrewritable hv) (hwf.operand_lt o hmem v hv) (hwf.ranked o hmem v hv)
  | inner d v hd hop hv =>
    exact hvalue (hrewritable hop) (hwf.operand_lt d hd v hv)
      ((hwf.ranked d hd v hv).trans (hwf.ranked o hmem _ hop))
  | swap op lhs rhs hop hkind hl hr =>
    have hcount : ∀ p : Operation → Bool, p ⟨o.op.swapped, o.result⟩ = p o →
        (Fold.swap.apply before o after next).ops.countP p = (before ++ o :: after).countP p := by
      intro p hp
      rw [Fold.apply, Fold.newValue, countP_body, countP_body, hp]
    refine ⟨rank, wellFormed_swap hwf, Body.below_of_swappable (hcount _ ?_) (hcount _ ?_)
      (swappable_swap_lt hop hkind hl hr)⟩
    · simp [Operation.isRewritable, hop, ScalarOp.swapped]
    · cases op <;> simp [Operation.isMul, hop, ScalarOp.swapped]
  | mulToShl lhs rhs ty bits hop =>
    have hlmem : lhs ∈ o.op.operands := by simp [hop, ScalarOp.operands]
    have hlr := hwf.ranked o hmem lhs hlmem
    have hne : lhs ≠ o.result := fun heq => by simp [heq] at hlr
    refine ⟨_, wellFormed_apply hwf (Fold.withConstant_fits hresult (hwf.operand_lt o hmem lhs hlmem)
      hne hlr (Nat.le_refl _)), Body.below_of_muls ?_ ?_⟩
    · rw [Body.rewritable, Body.rewritable, countP_apply isRewritable_replaceUses rfl, countP_body,
        hrewritable hlmem]
      rfl
    · have hmul : o.isMul = true := by rw [Operation.isMul, hop]
      rw [Body.muls, Body.muls, countP_apply isMul_replaceUses rfl, countP_body, hmul]
      simp [Fold.emitted, Operation.isMul]
  | reassociate op lhs rhs d innerLhs innerRhs ty bits hop hd hlhs hinner hconst =>
    have hlmem : lhs ∈ o.op.operands := by simp [hop, ScalarOp.operands]
    have hlmem' : innerLhs ∈ d.op.operands := by simp [hinner, ScalarOp.operands]
    have hlr := hwf.ranked o hmem lhs hlmem
    have hlr' := hwf.ranked d hd innerLhs hlmem'
    have hlt' := hwf.operand_lt d hd innerLhs hlmem'
    rw [hlhs] at hlr'
    have hne : innerLhs ≠ o.result := fun heq => by
      rw [heq] at hlr'
      exact Nat.lt_asymm hlr hlr'
    refine ⟨_, wellFormed_apply hwf (Fold.withConstant_fits hresult hlt' hne hlr' (Nat.le_of_lt hlr)),
      Body.below_of_ranks ?_ ?_ (swappable_apply_le hwf (hrewritable hlmem) hlt' hne hconst)
        (ranks_apply hwf hlr)⟩
    · rw [Body.rewritable, Body.rewritable, countP_apply isRewritable_replaceUses rfl, countP_body,
        hrewritable hlmem]
      rfl
    · have hmul : o.isMul = decide (op = .mul) := by
        rw [Operation.isMul, hop]
        cases op <;> rfl
      rw [Body.muls, Body.muls, countP_apply isMul_replaceUses rfl, countP_body, hmul]
      cases op <;> rfl

/-! ## Soundness and termination -/

theorem freshFrom_next {b : Body} {rank : Value → Nat} {o : Operation} (hwf : b.WellFormed rank)
    (ho : o ∈ b.ops) : FreshFrom b.ops o b.next := by
  intro d hd v hv
  rcases hd.cases_tail with rfl | ⟨e, -, he⟩
  · exact hwf.operand_lt _ ho v hv
  · exact hwf.operand_lt d he.1 v hv

/-- Folding a body again and again comes to an end, in a body with nothing left
    to fold; and in every body on the way each fold gives the result of the
    operation it replaces, wherever that is neither poison nor undefined. -/
theorem folding_sound_and_ends {b : Body} {rank : Value → Nat} (hwf : b.WellFormed rank) :
    Acc (fun b' b => Folds b b') b ∧
    (∃ b', Relation.ReflTransGen Folds b b' ∧ ∀ c, ¬Folds b' c) ∧
    ∀ b', Relation.ReflTransGen Folds b b' → ∀ {attrs env o x f}, o ∈ b'.ops →
      Current attrs b'.ops env o → env o.result.id = some x → foldOp b'.ops o = some f →
      f.Computes (attrs o.result.id) env b'.next o x := by
  have hacc : Acc (fun b' b => Folds b b') b :=
    acc_of_measure (r := Folds) Body.below_wf (fun _ _ _ => folds_below) hwf
  refine ⟨hacc, exists_fixpoint hacc, fun b' hb' attrs env o x f ho hcurrent hx hfold => ?_⟩
  have hstep : ∀ c rank c', Body.WellFormed c rank → Folds c c' → ∃ rank', c'.WellFormed rank' :=
    fun _ _ _ hinv hfold => (folds_below hinv hfold).imp fun _ h => h.1
  obtain ⟨rank', hwf'⟩ := exists_inv_of_reflTransGen hstep hwf hb'
  exact foldOp_computes hcurrent (freshFrom_next hwf' ho) hx hfold

/-! An instance: `(x + 3) + 4` at eight bits, where `x` is 250. -/

def byte (id : Nat) : Value := ⟨id, .int 8 .signless⟩

def outerSum : Operation := ⟨.bin .add (byte 2) (byte 3), byte 4⟩

def sums : List Operation :=
  [⟨.constant 3, byte 1⟩, ⟨.bin .add (byte 0) (byte 1), byte 2⟩, ⟨.constant 4, byte 3⟩, outerSum]

def sumsEnv (id : Nat) : Option Nat := [250, 3, 253, 4, 1][id]?

theorem sums_wellFormed : Body.WellFormed ⟨sums, 5⟩ Value.id := by
  refine ⟨by decide, by decide, by decide, by decide⟩

theorem mem_sums_of_feeds {d : Operation} (h : Relation.ReflTransGen (Feeds sums) outerSum d) :
    d ∈ sums := by
  rcases h.cases_tail with rfl | ⟨e, -, he⟩
  · decide
  · exact he.1

theorem sums_current : Current (fun _ => {}) sums sumsEnv outerSum := by
  have htyped : ∀ d ∈ sums, d.Typed := by
    simp [sums, outerSum, Operation.Typed, Ty.IsWord, byte]
  have hholds : ∀ d ∈ sums, sumsEnv d.result.id = d.op.evalFlagged {} sumsEnv 8 ∧
      d.result.ty.intWidth = some 8 := by decide
  have hbounded : ∀ d ∈ sums, ∀ v ∈ d.op.operands,
      v.ty.intWidth = some 8 ∧ (sumsEnv v.id).all (· < 2 ^ 8) = true := by decide
  refine ⟨fun d hd => htyped d (mem_sums_of_feeds hd), fun d hd x hx => ⟨8, ?_, ?_⟩,
    fun d hd v hv w x hw hx => ?_⟩
  · exact (hholds d (mem_sums_of_feeds hd)).2
  · exact (hholds d (mem_sums_of_feeds hd)).1.symm.trans hx
  · obtain ⟨hw', hlt⟩ := hbounded d (mem_sums_of_feeds hd) v hv
    obtain rfl : 8 = w := Option.some.inj (hw'.symm.trans hw)
    rw [hx, Option.all_some, decide_eq_true_eq] at hlt
    exact hlt

theorem folding_sums_sound_and_ends : Acc (fun b' b => Folds b b') ⟨sums, 5⟩ ∧
    (Fold.withConstant ⟨8, .signless⟩ 7 .add (byte 0)).Computes {} sumsEnv 5 outerSum 1 :=
  ⟨(folding_sound_and_ends sums_wellFormed).1,
    (folding_sound_and_ends sums_wellFormed).2.2 ⟨sums, 5⟩ .refl (by decide) sums_current
      (by decide) (by decide)⟩

end Crabbit.Llvm
