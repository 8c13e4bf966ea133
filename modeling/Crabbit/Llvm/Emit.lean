/-
  Crabbit.Llvm.Emit

  Inserting operations in front of a program point, and how to reason about
  what the inserted operations compute.

  `Yields env n facts m w x` says that the emitter `m`, started where the
  values in `facts` have the bits listed there, appends operations that run to
  the end and return a value of width `w` with the bits `x`.  A chain of
  emitters is followed with `Yields.bind`: each step adds the fact about its
  own result, and no step disturbs the earlier ones, because every emitted
  operation defines a fresh value.  The instances of `Knows` look a value up
  among the facts.
-/

import Crabbit.Llvm.Scalar

namespace Crabbit.Llvm

open Crabbit.Lib (wrap toSigned wrap_lt)

/-! ## The emitter -/

structure EmitState where
  /-- The identity of the next definition. -/
  next : Nat
  /-- What has been inserted so far, in order. -/
  emitted : List Operation

abbrev Emit := StateM EmitState

/-- Insert an operation and return its result. -/
def insertBefore (op : ScalarOp) (ty : Ty) : Emit Value := fun s =>
  let result : Value := ⟨s.next, ty⟩
  (result, ⟨s.next + 1, s.emitted ++ [⟨op, result⟩]⟩)

def emitConst (ty : IntegerType) (bits : Nat) : Emit Value :=
  insertBefore (.constant (maskToWidth bits ty.width)) ty.ty

/-- The arithmetic operations take their result type from the left operand. -/
def emitBin (op : IntBinOp) (lhs rhs : Value) : Emit Value :=
  insertBefore (.bin op lhs rhs) lhs.ty

def emitAdd : Value → Value → Emit Value := emitBin .add
def emitSub : Value → Value → Emit Value := emitBin .sub
def emitMul : Value → Value → Emit Value := emitBin .mul
def emitAnd : Value → Value → Emit Value := emitBin .and
def emitLShr : Value → Value → Emit Value := emitBin .lshr
def emitAShr : Value → Value → Emit Value := emitBin .ashr

def emitCast (kind : IntCast) (arg : Value) (ty : IntegerType) : Emit Value :=
  insertBefore (.cast kind arg) ty.ty

/-- A comparison is an `i1`. -/
def emitICmp (predicate : ICmpPredicate) (lhs rhs : Value) : Emit Value :=
  insertBefore (.icmp predicate lhs rhs) (IntegerType.get 1).ty

/-! ## What an emitter yields -/

/-- A value of width `width` whose bits are `bits`. -/
structure Fact where
  value : Value
  width : Nat
  bits : Nat

/-- The fact is true in an environment. -/
structure Fact.Holds (env : Env) (f : Fact) : Prop where
  width : f.value.ty.intWidth = some f.width
  bits_lt : f.bits < 2 ^ f.width
  bits : env f.value.id = some f.bits

/-- The operations inserted so far run from `env`, the facts hold after them,
    and the values that existed before the insertion (`id < n`) keep their
    bits. -/
def Known (env : Env) (n : Nat) (s : EmitState) (facts : List Fact) : Prop :=
  n ≤ s.next ∧ ∃ env', runOps s.emitted env = some env' ∧ (∀ i < n, env' i = env i) ∧
    ∀ f ∈ facts, f.value.id < s.next ∧ f.Holds env'

def Yields (env : Env) (n : Nat) (facts : List Fact) (m : Emit Value) (w x : Nat) : Prop :=
  ∀ s, Known env n s facts →
    Known env n (m s).2 (⟨(m s).1, w, x⟩ :: facts)

/-- `facts` says that the value `v` has width `w` and bits `x`. -/
class Knows (facts : List Fact) (v : Value) (w x : outParam Nat) : Prop where
  mem : ⟨v, w, x⟩ ∈ facts

instance (priority := high) Knows.head (facts : List Fact) (v : Value) (w x : Nat) :
    Knows (⟨v, w, x⟩ :: facts) v w x := ⟨List.mem_cons_self⟩

instance Knows.tail (f : Fact) (facts : List Fact) (v : Value) (w x : Nat) [h : Knows facts v w x] :
    Knows (f :: facts) v w x := ⟨List.mem_cons_of_mem _ h.mem⟩

section Rules

variable {env : Env} {n : Nat} {facts : List Fact} {w x : Nat}

theorem Yields.bind {m : Emit Value} {k : Value → Emit Value} {w' x' : Nat}
    (hm : Yields env n facts m w x)
    (hk : ∀ v, Yields env n (⟨v, w, x⟩ :: facts) (k v) w' x') :
    Yields env n facts (m >>= k) w' x' := by
  intro s hs
  have h := hk _ _ (hm s hs)
  obtain ⟨hn, env', hrun, hframe, hfacts⟩ := h
  -- The intermediate fact is dropped again.
  refine ⟨hn, env', hrun, hframe, fun f hf => hfacts f ?_⟩
  rcases List.mem_cons.mp hf with rfl | hf
  · exact List.mem_cons_self
  · exact List.mem_cons_of_mem _ (List.mem_cons_of_mem _ hf)

theorem Yields.pure (v : Value) [h : Knows facts v w x] :
    Yields env n facts (pure v) w x := by
  intro s ⟨hn, env', hrun, hframe, hfacts⟩
  refine ⟨hn, env', hrun, hframe, fun f hf => ?_⟩
  rcases List.mem_cons.mp hf with rfl | hf
  · exact hfacts _ h.mem
  · exact hfacts f hf

/-- The result under another name for its bits. -/
theorem Yields.congr {m : Emit Value} {x' : Nat} (hm : Yields env n facts m w x) (h : x = x') :
    Yields env n facts m w x' := h ▸ hm

/-- Inserting an operation yields what it evaluates to. -/
theorem yields_insertBefore {op : ScalarOp} {ty : Ty} (hty : ty.intWidth = some w)
    (hx : x < 2 ^ w)
    (heval : ∀ env', (∀ f ∈ facts, f.Holds env') → op.eval env' w = some x) :
    Yields env n facts (insertBefore op ty) w x := by
  intro s ⟨hn, env', hrun, hframe, hfacts⟩
  have hstep : Operation.step env' ⟨op, ⟨s.next, ty⟩⟩
      = some (Function.update env' s.next (some x)) := by
    unfold Operation.step
    rw [hty, Option.bind_eq_bind, Option.bind_some, heval env' fun f hf => (hfacts f hf).2]
    rfl
  refine ⟨Nat.le_succ_of_le hn, Function.update env' s.next (some x), ?_, ?_, ?_⟩
  · show runOps (s.emitted ++ [_]) env = _
    rw [runOps_append, hrun, Option.bind_some, runOps, hstep]
    rfl
  · intro i hi
    rw [Function.update_of_ne (by omega)]
    exact hframe i hi
  · intro f hf
    rcases List.mem_cons.mp hf with rfl | hf
    · exact ⟨Nat.lt_succ_self _, hty, hx, Function.update_self ..⟩
    · -- An older fact is about a value with a smaller identity.
      obtain ⟨hlt, hwidth, hbits, hval⟩ := hfacts f hf
      refine ⟨Nat.lt_succ_of_lt hlt, hwidth, hbits, ?_⟩
      rw [Function.update_of_ne (by omega)]
      exact hval

theorem yields_emitConst {ty : IntegerType} (bits : Nat) (hty : ty.width = w) (hw : w < 128)
    (hbits : bits < 2 ^ w) : Yields env n facts (emitConst ty bits) w bits := by
  subst hty
  apply yields_insertBefore rfl hbits
  intro env' _
  rw [maskToWidth_eq hw, Nat.mod_eq_of_lt hbits]
  exact congrArg some (Nat.mod_eq_of_lt hbits)

/-- Known bits are in range wherever the emitter is started. -/
theorem Yields.of_lt {m : Emit Value} {v : Value} {w' y : Nat} (hv : Knows facts v w' y)
    (h : y < 2 ^ w' → Yields env n facts m w x) : Yields env n facts m w x := by
  intro s hs
  refine h ?_ s hs
  obtain ⟨-, env', -, -, hfacts⟩ := hs
  exact (hfacts _ hv.mem).2.bits_lt

/-- So is the type of a known value. -/
theorem Yields.of_type {m : Emit Value} {v : Value} {w' y : Nat} (hv : Knows facts v w' y)
    (h : v.ty.intWidth = some w' → Yields env n facts m w x) : Yields env n facts m w x := by
  intro s hs
  refine h ?_ s hs
  obtain ⟨-, env', -, -, hfacts⟩ := hs
  exact (hfacts _ hv.mem).2.width

variable {y z : Nat} (a b : Value)

theorem yields_emitBin {op : IntBinOp} [ha : Knows facts a w y] [hb : Knows facts b w z]
    (hlt : x < 2 ^ w) (heval : evalBin op w y z = some x) :
    Yields env n facts (emitBin op a b) w x := by
  refine Yields.of_type ha fun hty => yields_insertBefore hty hlt fun env' hfacts => ?_
  have h1 := hfacts _ ha.mem
  have h2 := hfacts _ hb.mem
  rw [eval_bin h1.bits h2.bits h1.width h2.width]
  exact heval

theorem yields_emitAdd [Knows facts a w y] [Knows facts b w z] :
    Yields env n facts (emitAdd a b) w (wrap w (y + z)) :=
  yields_emitBin a b (wrap_lt _ _) rfl

theorem yields_emitSub [Knows facts a w y] [Knows facts b w z] :
    Yields env n facts (emitSub a b) w (wrap w (y - z)) :=
  yields_emitBin a b (wrap_lt _ _) rfl

theorem yields_emitMul [Knows facts a w y] [Knows facts b w z] :
    Yields env n facts (emitMul a b) w (wrap w (y * z)) :=
  yields_emitBin a b (wrap_lt _ _) rfl

theorem yields_emitAnd [ha : Knows facts a w y] [Knows facts b w z] :
    Yields env n facts (emitAnd a b) w (y &&& z) :=
  Yields.of_lt ha fun hy => yields_emitBin a b (lt_of_le_of_lt Nat.and_le_left hy) rfl

theorem yields_emitLShr [ha : Knows facts a w y] [Knows facts b w z] (hz : z < w) :
    Yields env n facts (emitLShr a b) w (y / 2 ^ z) :=
  Yields.of_lt ha fun hy =>
    yields_emitBin a b (lt_of_le_of_lt (Nat.div_le_self _ _) hy) (if_pos hz)

theorem yields_emitAShr [Knows facts a w y] [Knows facts b w z] (hz : z < w) :
    Yields env n facts (emitAShr a b) w (wrap w (toSigned w y / 2 ^ z)) :=
  yields_emitBin a b (wrap_lt _ _) (if_pos hz)

theorem yields_emitCast (kind : IntCast) (a : Value) {ty : IntegerType} {v : Nat} [ha : Knows facts a v y]
    (hty : ty.width = w) (hlt : evalCast kind v w y < 2 ^ w) :
    Yields env n facts (emitCast kind a ty) w (evalCast kind v w y) := by
  subst hty
  apply yields_insertBefore rfl hlt
  intro env' hfacts
  exact eval_cast (hfacts _ ha.mem).bits (hfacts _ ha.mem).width

theorem yields_emitTrunc {ty : IntegerType} {v : Nat} [Knows facts a v y] (hty : ty.width = w) :
    Yields env n facts (emitCast .trunc a ty) w (y % 2 ^ w) :=
  yields_emitCast _ a hty (Nat.mod_lt _ (Nat.two_pow_pos w))

theorem yields_emitSExt {ty : IntegerType} {v : Nat} [Knows facts a v y] (hty : ty.width = w) :
    Yields env n facts (emitCast .sext a ty) w (wrap w (toSigned v y)) :=
  yields_emitCast _ a hty (wrap_lt _ _)

theorem yields_emitZExt {ty : IntegerType} {v : Nat} [ha : Knows facts a v y] (hty : ty.width = w)
    (hvw : v ≤ w) : Yields env n facts (emitCast .zext a ty) w y :=
  Yields.of_lt ha fun hy => yields_emitCast .zext a hty
    (lt_of_lt_of_le hy (Nat.pow_le_pow_right (by omega) hvw))

theorem yields_emitICmp {predicate : ICmpPredicate} {v : Nat} [ha : Knows facts a v y]
    [hb : Knows facts b v z] :
    Yields env n facts (emitICmp predicate a b) 1 (evalICmp predicate v y z).toNat := by
  apply yields_insertBefore rfl
  · cases evalICmp predicate v y z <;> decide
  · intro env' hfacts
    have h1 := hfacts _ ha.mem
    have h2 := hfacts _ hb.mem
    exact eval_icmp h1.bits h2.bits h1.width h2.width

end Rules

/-! ## Emitters over represented integers

The same rules for operands whose bits are known as `wrap w` of an integer. -/

section WrapRules

variable {env : Env} {n : Nat} {facts : List Fact} {w k : Nat} {y z : Int} (a b : Value)

theorem yields_constWrap {ty : IntegerType} (hty : ty.width = w) (hw : w < 128) (z : Int) :
    Yields env n facts (emitConst ty (wrap w z)) w (wrap w z) :=
  yields_emitConst _ hty hw (wrap_lt _ _)

theorem yields_addWrap [Knows facts a w (wrap w y)] [Knows facts b w (wrap w z)] :
    Yields env n facts (emitAdd a b) w (wrap w (y + z)) :=
  (yields_emitAdd a b).congr (Lib.wrap_add w y z)

theorem yields_subWrap [Knows facts a w (wrap w y)] [Knows facts b w (wrap w z)] :
    Yields env n facts (emitSub a b) w (wrap w (y - z)) :=
  (yields_emitSub a b).congr (Lib.wrap_sub w y z)

theorem yields_mulWrap [Knows facts a w (wrap w y)] [Knows facts b w (wrap w z)] :
    Yields env n facts (emitMul a b) w (wrap w (y * z)) :=
  (yields_emitMul a b).congr (Lib.wrap_mul w y z)

theorem yields_maskWrap [Knows facts a w (wrap w y)] [Knows facts b w (2 ^ k - 1)] (hk : k ≤ w) :
    Yields env n facts (emitAnd a b) w (wrap w (y % 2 ^ k)) :=
  (yields_emitAnd a b).congr (Lib.wrap_and_two_pow_sub_one hk y)

theorem yields_lshrWrap [Knows facts a w (wrap w y)] [Knows facts b w k] (hk : k < w)
    (h0 : 0 ≤ y) (h : y < 2 ^ w) : Yields env n facts (emitLShr a b) w (wrap w (y / 2 ^ k)) :=
  (yields_emitLShr a b hk).congr (Lib.wrap_div_two_pow h0 h)

theorem yields_ashrWrap [Knows facts a w (wrap w y)] [Knows facts b w k] (hk : k < w)
    (h : Lib.InRange true w y) : Yields env n facts (emitAShr a b) w (wrap w (y / 2 ^ k)) := by
  apply (yields_emitAShr a b hk).congr
  rw [Lib.toSigned_wrap (by omega) h.1 h.2]

end WrapRules

end Crabbit.Llvm
