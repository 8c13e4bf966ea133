/-
  Crabbit.Llvm.Gvn

  The common-subexpression half of global value numbering (`gvn.rs`): a walk
  over the dominator tree with a scoped table of expressions.
-/

import Crabbit.Llvm.AddrKey
import Crabbit.Llvm.Poison
import Crabbit.Llvm.Rewrite

namespace Crabbit.Llvm

/-! ## Expression keys -/

/-- The identity of a pure operation: its kind, its operands and the attributes
    the pass compares. -/
inductive ExprKey where
  | bin (id : OpId) (lhs rhs : Value) (ty : Ty) (flags : Bool × Bool)
  | fbin (id : OpId) (lhs rhs : Value) (ty : Ty) (flags : FastmathFlags)
  | fneg (arg : Value) (flags : FastmathFlags)
  | cast (id : OpId) (arg : Value) (ty : Ty)
  | icmp (predicate : ICmpPredicate) (lhs rhs : Value)
  | fcmp (predicate : FCmpPredicate) (lhs rhs : Value) (flags : FastmathFlags)
  | select (cond trueVal falseVal : Value) (flags : FastmathFlags)
  | gep (ty : Ty) (base : Value) (indices : List IdxKey)
  | extract (arg : Value) (indices : List Nat)
  deriving DecidableEq

/-- `expr_key`.  Operations of other kinds take no part. -/
def exprKey (T : AttrTable) : Op → Option ExprKey
  | .generic id attrs [r] [lhs, rhs] [] =>
    if id.intBin?.isSome then some (.bin id lhs rhs r.ty ((T attrs).nsw, (T attrs).nuw))
    else if id.isFBin then some (.fbin id lhs rhs r.ty (T attrs).fastMath)
    else if id = .icmp then some (.icmp (T attrs).icmp lhs rhs)
    else if id = .fcmp then some (.fcmp (T attrs).fcmp lhs rhs (T attrs).fastMath)
    else none
  | .generic id attrs [r] [arg] [] =>
    if id.isCast then some (.cast id arg r.ty)
    else if id = .fneg then some (.fneg arg (T attrs).fastMath)
    else if id = .extractValue then some (.extract arg (T attrs).indices)
    else none
  | .generic .select attrs [_] [cond, trueVal, falseVal] [] =>
    some (.select cond trueVal falseVal (T attrs).fastMath)
  | .gep _ base ty indices => some (.gep ty base (indices.map GepIndex.key))
  | .bitcast r arg => some (.cast .bitcast arg r.ty)
  | _ => none

/-! ## The walk -/

/-- The dominator tree: a block and the blocks it immediately dominates. -/
inductive DomTree where
  | node (block : Nat) (children : List DomTree)

def DomTree.block : DomTree → Nat
  | .node b _ => b

/-- One scope of the expression table. -/
abbrev Scope := List (ExprKey × Value)

/-- The binding of a key in the innermost scope that has one. -/
def lookupKey (scopes : List Scope) (key : ExprKey) : Option Value :=
  scopes.findSome? fun scope => scope.lookup key

/-- A replacement, and the function it is made in. -/
structure Merge where
  region : Region
  replaced : Value
  existing : Value
  deriving DecidableEq

/-- The function at hand, and what was replaced so far. -/
structure GvnState where
  region : Region
  merges : List Merge := []

/-- The value to use for `x` once `v` replaces `r`. -/
def redirect (r v x : Value) : Value := if x = r then v else x

/-- `replace_op_with_value`: all uses of the result become uses of the value,
    and the operation is erased. -/
def Region.replaceWith (g : Region) (r v : Value) : Region :=
  g.rewrite (redirect r v) fun b =>
    (g.block b).ops.map fun op => (op, if r ∈ op.results then .drop else .keep)

/-- The operations of a block, from a position on: `n` of them are left of
    those the block had when it was entered. -/
def cseOps (T : AttrTable) (b : Nat) :
    Nat → Nat → List Scope → Scope → GvnState → Scope × GvnState
  | 0, _, _, scope, st => (scope, st)
  | n + 1, pos, outer, scope, st =>
    match (st.region.block b).ops[pos]? with
    | none => (scope, st)
    | some op =>
      match exprKey T op, op.results with
      | some key, r :: _ =>
        match lookupKey (scope :: outer) key with
        | some existing =>
          cseOps T b n pos outer scope
            { region := st.region.replaceWith r existing
              merges := st.merges ++ [⟨st.region, r, existing⟩] }
        | none => cseOps T b n (pos + 1) outer ((key, r) :: scope) st
      | _, _ => cseOps T b n (pos + 1) outer scope st

mutual

/-- A block in a scope of its own, and the blocks below it. -/
def cseTree (T : AttrTable) : DomTree → List Scope → GvnState → GvnState
  | .node b children, outer, st =>
    let entered := cseOps T b (st.region.block b).ops.length 0 outer [] st
    cseTrees T children (entered.1 :: outer) entered.2

/-- The children, the last one first: they are popped off a stack. -/
def cseTrees (T : AttrTable) : List DomTree → List Scope → GvnState → GvnState
  | [], _, st => st
  | child :: rest, outer, st => cseTree T child outer (cseTrees T rest outer st)

end

/-- `cse`. -/
def cse (T : AttrTable) (g : Region) (dom : DomTree) : GvnState := cseTree T dom [] ⟨g, []⟩

end Crabbit.Llvm
