/-
  Crabbit.Llvm.ConstantFoldSound

  Folding with constant operands, in a running function.

  An operation is folded by what its operands are defined as, and by what their
  operands are.  Where it executes, these definitions have executed, and hold
  what they evaluate to; a value that is poison or undefined is held as none.
  The flags of an operation only make its result poison more often, and the
  operations a fold creates have none.
-/

import Crabbit.Llvm.ConstantFold
import Mathlib.Logic.Relation

namespace Crabbit.Llvm

open Crabbit.Lib

/-! ## Flags -/

/-- The bits of an integer that is not poison. -/
def PVal.bits? : PVal → Option Nat
  | .int bits => some bits
  | _ => none

/-- What an operation with flags defines, none also where it is poison. -/
def ScalarOp.evalFlagged (a : Attrs) (env : Env) (resultWidth : Nat) : ScalarOp → Option Nat
  | .bin op lhs rhs => do
    let x ← env lhs.id
    let y ← env rhs.id
    if lhs.ty.intWidth = some resultWidth ∧ rhs.ty.intWidth = some resultWidth then
      (evalIntBin op a resultWidth x y).bind PVal.bits?
    else none
  | .cast .zext arg => do
    let x ← env arg.id
    let v ← arg.ty.intWidth
    if a.nneg ∧ 2 ^ (v - 1) ≤ x then none else some (evalCast .zext v resultWidth x)
  | op => op.eval env resultWidth

theorem overflowing_bits {a : Attrs} {w z : Nat} {s u : Int}
    (h : (overflowing a w s u).bits? = some z) : z = wrap w s := by
  rw [overflowing] at h
  split at h
  · exact absurd h (Option.some_ne_none _ ∘ Eq.symm)
  · exact (Option.some.inj h).symm

theorem unlessInexact_bits {a : Attrs} {rest : Int} {bits z : Nat}
    (h : (unlessInexact a rest bits).bits? = some z) : z = bits := by
  rw [unlessInexact] at h
  split at h
  · exact absurd h (Option.some_ne_none _ ∘ Eq.symm)
  · exact (Option.some.inj h).symm

/-- Words that agree as signed numbers agree modulo their size. -/
theorem wrap_signed_add {w x y : Nat} :
    wrap w (toSigned w x + toSigned w y) = wrap w (x + y) :=
  wrap_eq_wrap_iff.mpr ((toSigned_modEq w x).add (toSigned_modEq w y))

theorem wrap_signed_sub {w x y : Nat} :
    wrap w (toSigned w x - toSigned w y) = wrap w (x - y) :=
  wrap_eq_wrap_iff.mpr ((toSigned_modEq w x).sub (toSigned_modEq w y))

theorem wrap_signed_mul {w x : Nat} {y z : Int} (h : y = z) :
    wrap w (toSigned w x * y) = wrap w (x * z) :=
  h ▸ wrap_eq_wrap_iff.mpr ((toSigned_modEq w x).mul_right y)

/-- Where flags leave a result, it is the one without them. -/
theorem evalIntBin_bits {op : IntBinOp} {a : Attrs} {w x y z : Nat}
    (h : (evalIntBin op a w x y).bind PVal.bits? = some z) : evalBin op w x y = some z := by
  cases op with
  | add => exact congrArg some ((overflowing_bits h).trans wrap_signed_add).symm
  | sub => exact congrArg some ((overflowing_bits h).trans wrap_signed_sub).symm
  | mul =>
    have hz := (overflowing_bits h).trans (wrap_signed_mul rfl)
    have hy : wrap w ((x : Int) * toSigned w y) = wrap w (x * y) :=
      wrap_eq_wrap_iff.mpr ((toSigned_modEq w y).mul_left x)
    exact congrArg some (hz.trans hy).symm
  | shl =>
    simp only [evalIntBin, Option.bind_some] at h
    split at h
    · exact absurd h (Option.some_ne_none _ ∘ Eq.symm)
    · rename_i hlt
      rw [evalBin, if_pos (Nat.lt_of_not_le hlt)]
      have hz := overflowing_bits h
      rw [hz]
      exact congrArg some (wrap_signed_mul rfl).symm
  | lshr | ashr =>
    simp only [evalIntBin, Option.bind_some] at h
    split at h
    · exact absurd h (Option.some_ne_none _ ∘ Eq.symm)
    · rename_i hlt
      rw [evalBin, if_pos (Nat.lt_of_not_le hlt), unlessInexact_bits h]
  | and | xor => exact h
  | or =>
    simp only [evalIntBin, Option.bind_some] at h
    split at h
    · exact absurd h (Option.some_ne_none _ ∘ Eq.symm)
    · exact h
  | udiv =>
    simp only [evalIntBin] at h
    split at h
    · exact absurd h (Option.some_ne_none _ ∘ Eq.symm)
    · rename_i hne
      rw [evalBin, if_neg hne, unlessInexact_bits h]
  | urem =>
    simp only [evalIntBin] at h
    split at h
    · exact absurd h (Option.some_ne_none _ ∘ Eq.symm)
    · rename_i hne
      rw [evalBin, if_neg hne]
      exact h
  | sdiv =>
    simp only [evalIntBin] at h
    split at h
    · exact absurd h (Option.some_ne_none _ ∘ Eq.symm)
    · rename_i hne
      rw [evalBin, if_neg (fun hzero => hne (Or.inl hzero)), unlessInexact_bits h]
  | srem =>
    simp only [evalIntBin] at h
    split at h
    · exact absurd h (Option.some_ne_none _ ∘ Eq.symm)
    · rename_i hne
      rw [evalBin, if_neg (fun hzero => hne (Or.inl hzero))]
      exact h

/-- The flags of a sum or a product do not tell its operands apart. -/
theorem evalIntBin_comm {op : IntBinOp} (h : isAddOrMul op = true) (a : Attrs) (w x y : Nat) :
    evalIntBin op a w y x = evalIntBin op a w x y := by
  cases op with
  | add => simp only [evalIntBin, Int.add_comm]
  | mul => simp only [evalIntBin, Int.mul_comm]
  | _ => exact absurd h Bool.noConfusion

theorem ScalarOp.eval_of_evalFlagged {op : ScalarOp} {a : Attrs} {env : Env} {w x : Nat}
    (h : op.evalFlagged a env w = some x) : op.eval env w = some x := by
  match op with
  | .constant _ | .icmp _ _ _ | .cast .trunc _ | .cast .sext _ => exact h
  | .bin op lhs rhs =>
    simp only [ScalarOp.evalFlagged, Option.bind_eq_bind, Option.bind_eq_some_iff] at h
    obtain ⟨l, hl, r, hr, h⟩ := h
    split at h
    · rename_i hty
      rw [eval_bin hl hr hty.1 hty.2]
      exact evalIntBin_bits h
    · exact absurd h (Option.some_ne_none _ ∘ Eq.symm)
  | .cast .zext arg =>
    simp only [ScalarOp.evalFlagged, Option.bind_eq_bind, Option.bind_eq_some_iff] at h
    obtain ⟨l, hl, v, hv, h⟩ := h
    split at h
    · exact absurd h (Option.some_ne_none _ ∘ Eq.symm)
    · rw [eval_cast hl hv]
      exact h

/-! ## The operations a fold leaves -/

namespace Fold

/-- The operations inserted before the folded one, of results `next` on. -/
def emitted (next : Nat) : Fold → List Operation
  | .constant ty bits => [⟨.constant (maskToWidth bits ty.width), ⟨next, ty.ty⟩⟩]
  | .withConstant ty bits op lhs =>
    [⟨.constant bits, ⟨next, ty.ty⟩⟩, ⟨.bin op lhs ⟨next, ty.ty⟩, ⟨next + 1, lhs.ty⟩⟩]
  | .value _ | .swap => []

/-- The value that stands for the result of the folded operation from then on. -/
def newValue (next : Nat) : Fold → Option Value
  | .constant ty _ => some ⟨next, ty.ty⟩
  | .withConstant _ _ _ lhs => some ⟨next + 1, lhs.ty⟩
  | .value v => some v
  | .swap => none

end Fold

/-- The operation with its operands exchanged. -/
def ScalarOp.swapped : ScalarOp → ScalarOp
  | .bin op lhs rhs => .bin op rhs lhs
  | op => op

def ScalarOp.operands : ScalarOp → List Value
  | .constant _ => []
  | .bin _ lhs rhs | .icmp _ lhs rhs => [lhs, rhs]
  | .cast _ arg => [arg]

/-- In place of an operation of result `x`, a fold leaves operations that define
    its new value as `x` and no value there was before; or the operation with
    its operands exchanged, under the same flags. -/
def Fold.Computes (f : Fold) (a : Attrs) (env : Env) (next : Nat) (o : Operation) (x : Nat) :
    Prop :=
  match f.newValue next with
  | some v => ∃ env', runOps (f.emitted next) env = some env' ∧ env' v.id = some x ∧
      v.ty = o.result.ty ∧ ∀ id < next, env' id = env id
  | none => ∃ w, o.result.ty.intWidth = some w ∧ o.op.swapped.evalFlagged a env w = some x

/-! ## Operations in their function -/

/-- An integer type of a width from 1 to 128. -/
def Ty.IsWord (ty : Ty) (w : Nat) : Prop := (∃ sign, ty = .int w sign) ∧ 0 < w ∧ w ≤ 128

/-- The types the verifier of the dialect asks for. -/
def Operation.Typed (o : Operation) : Prop :=
  match o.op with
  | .constant bits => ∃ w, o.result.ty.IsWord w ∧ bits < 2 ^ w
  | .bin _ lhs rhs => lhs.ty = o.result.ty ∧ rhs.ty = o.result.ty ∧ ∃ w, o.result.ty.IsWord w
  | .icmp _ lhs rhs => lhs.ty = rhs.ty ∧ o.result.ty = (IntegerType.get 1).ty ∧
      ∃ w, lhs.ty.IsWord w
  | .cast kind arg => ∃ v w, arg.ty.IsWord v ∧ o.result.ty.IsWord w ∧
      if kind = .trunc then w < v else v < w

/-- `d` defines an operand of `o`. -/
def Feeds (defs : List Operation) (o d : Operation) : Prop := d ∈ defs ∧ d.result ∈ o.op.operands

/-- The environment right after an operation: whatever feeds it, directly or
    not, is typed, and holds what it evaluates to. -/
structure Current (attrs : Nat → Attrs) (defs : List Operation) (env : Env) (o : Operation) :
    Prop where
  typed : ∀ d, Relation.ReflTransGen (Feeds defs) o d → d.Typed
  holds : ∀ d, Relation.ReflTransGen (Feeds defs) o d → ∀ x, env d.result.id = some x →
    ∃ w, d.result.ty.intWidth = some w ∧ d.op.evalFlagged (attrs d.result.id) env w = some x
  bounded : ∀ d, Relation.ReflTransGen (Feeds defs) o d → ∀ v ∈ d.op.operands, ∀ w x,
    v.ty.intWidth = some w → env v.id = some x → x < 2 ^ w

/-- A value defined as a constant: what is known of it. -/
structure ConstOperand.Of (c : ConstOperand) (env : Env) (v : Value) (w : Nat) : Prop where
  valid : c.Valid w
  ty_eq : c.ty.ty = v.ty
  holds : ∀ x, env v.id = some x → x = c.masked

theorem asConstOperand_eq_some {defs : List Operation} {v : Value} {c : ConstOperand}
    (h : asConstOperand defs v = some c) :
    ∃ d ∈ defs, d.result = v ∧ d.op = .constant c.bits ∧ v.ty = .int c.width c.ty.sign ∧
      c.ty.width = c.width := by
  rw [asConstOperand] at h
  split at h
  · rename_i bits id width sign hfind
    have hv := List.find?_some hfind
    rw [decide_eq_true_eq] at hv
    obtain rfl := Option.some.inj h
    exact ⟨_, List.mem_of_find?_eq_some hfind, hv, rfl, hv ▸ rfl, rfl⟩
  · exact absurd h (Option.some_ne_none _ ∘ Eq.symm)

theorem Ty.IsWord.intWidth {ty : Ty} {w : Nat} (h : ty.IsWord w) : ty.intWidth = some w := by
  obtain ⟨⟨sign, rfl⟩, -⟩ := h
  rfl

section Sound

variable {attrs : Nat → Attrs} {defs : List Operation} {env : Env} {o d : Operation}

/-- The definition of an operand feeds the operation. -/
theorem Current.feeds {e : Operation} (hd : Relation.ReflTransGen (Feeds defs) o d)
    (he : e ∈ defs) (hop : e.result ∈ d.op.operands) :
    Relation.ReflTransGen (Feeds defs) o e := hd.tail ⟨he, hop⟩

/-- A constant operand of whatever feeds the operation. -/
theorem Current.constant (h : Current attrs defs env o)
    (hd : Relation.ReflTransGen (Feeds defs) o d) {v : Value} (hv : v ∈ d.op.operands)
    {c : ConstOperand} (hc : asConstOperand defs v = some c) {w : Nat}
    (hw : v.ty.intWidth = some w) : c.Of env v w := by
  obtain ⟨e, he, rfl, hop, hty, hwidth⟩ := asConstOperand_eq_some hc
  have hfeeds := Current.feeds hd he hv
  have htyped := h.typed e hfeeds
  simp only [Operation.Typed, hop] at htyped
  obtain ⟨w', hword, hbits⟩ := htyped
  obtain rfl : w' = w := Option.some.inj (hword.intWidth.symm.trans hw)
  have hcw : c.width = w' := by
    rw [hty] at hw
    exact Option.some.inj hw
  have hlt : c.bits < 2 ^ 128 :=
    Nat.lt_of_lt_of_le hbits (Nat.pow_le_pow_right (by decide) hword.2.2)
  have hvalid : c.Valid w' := ⟨hcw, hwidth.trans hcw, hword.2.1, hword.2.2, hlt⟩
  refine ⟨hvalid, ?_, fun x hx => ?_⟩
  · rw [hty, IntegerType.ty, hwidth]
  · obtain ⟨w'', hw'', heval⟩ := h.holds e hfeeds x hx
    obtain rfl : w' = w'' := Option.some.inj (hw.symm.trans hw'')
    rw [hop] at heval
    rw [hvalid.masked_eq]
    exact (Option.some.inj heval).symm

end Sound

/-! ## What the emitted operations compute -/

section Emitted

variable {a : Attrs} {env : Env} {next : Nat} {o : Operation} {w x : Nat}

/-- A fresh constant. -/
theorem Fold.constant_computes {ty : IntegerType} {bits : Nat} (hty : ty.ty = o.result.ty)
    (hw : ty.width = w) (hbits : maskToWidth bits w = x) (hx : x < 2 ^ w) :
    (Fold.constant ty bits).Computes a env next o x := by
  refine ⟨Function.update env next (some x), ?_, Function.update_self .., hty, fun id hid =>
    Function.update_of_ne (Nat.ne_of_lt hid) _ _⟩
  have hwidth : ty.ty.intWidth = some w := congrArg some hw
  simp only [Fold.emitted, runOps, Operation.step, hwidth, ScalarOp.eval, hw, hbits,
    Nat.mod_eq_of_lt hx, Option.bind_eq_bind, Option.bind_some]

/-- A value there was. -/
theorem Fold.value_computes {v : Value} (hty : v.ty = o.result.ty) (hv : env v.id = some x) :
    (Fold.value v).Computes a env next o x :=
  ⟨env, rfl, hv, hty, fun _ _ => rfl⟩

/-- A fresh operation on a value there was and a fresh constant. -/
theorem Fold.withConstant_computes {ty : IntegerType} {bits l : Nat} {op : IntBinOp} {lhs : Value}
    (hty : ty.ty = o.result.ty) (hlhs : lhs.ty = o.result.ty) (hw : ty.width = w)
    (hid : lhs.id < next) (hl : env lhs.id = some l) (hbits : bits < 2 ^ w)
    (hx : evalBin op w l bits = some x) :
    (Fold.withConstant ty bits op lhs).Computes a env next o x := by
  refine ⟨Function.update (Function.update env next (some bits)) (next + 1) (some x), ?_,
    Function.update_self .., hlhs, fun id hid => ?_⟩
  · have hwidth : ty.ty.intWidth = some w := congrArg some hw
    have hlw : lhs.ty.intWidth = some w := by rw [hlhs, ← hty, hwidth]
    have hl' : Function.update env next (some bits) lhs.id = some l := by
      rw [Function.update_of_ne (Nat.ne_of_lt hid), hl]
    have heval : (ScalarOp.bin op lhs ⟨next, ty.ty⟩).eval
        (Function.update env next (some bits)) w = some x :=
      (eval_bin hl' (Function.update_self ..) hlw hwidth).trans hx
    simp only [Fold.emitted, runOps, Operation.step, hwidth, hlw, Option.bind_eq_bind,
      Option.bind_some, ScalarOp.eval.eq_1, Nat.mod_eq_of_lt hbits, heval]
  · rw [Function.update_of_ne (by omega), Function.update_of_ne (by omega)]

end Emitted

/-! ## Identities -/

/-- A result is of its width. -/
theorem evalBin_lt {op : IntBinOp} {w x y z : Nat} (hx : x < 2 ^ w) (hy : y < 2 ^ w)
    (h : evalBin op w x y = some z) : z < 2 ^ w := by
  cases op with
  | add | sub | mul => exact Option.some.inj h ▸ wrap_lt w _
  | and => exact Option.some.inj h ▸ Nat.lt_of_le_of_lt Nat.and_le_left hx
  | or => exact Option.some.inj h ▸ Nat.or_lt_two_pow hx hy
  | xor => exact Option.some.inj h ▸ Nat.xor_lt_two_pow hx hy
  | shl | ashr =>
    rw [evalBin, Option.ite_none_right_eq_some] at h
    exact Option.some.inj h.2 ▸ wrap_lt w _
  | lshr =>
    rw [evalBin, Option.ite_none_right_eq_some] at h
    exact Option.some.inj h.2 ▸ Nat.lt_of_le_of_lt (Nat.div_le_self _ _) hx
  | udiv =>
    rw [evalBin, Option.ite_none_left_eq_some] at h
    exact Option.some.inj h.2 ▸ Nat.lt_of_le_of_lt (Nat.div_le_self _ _) hx
  | urem =>
    rw [evalBin, Option.ite_none_left_eq_some] at h
    exact Option.some.inj h.2 ▸ Nat.lt_of_le_of_lt (Nat.mod_le _ _) hx
  | sdiv | srem =>
    rw [evalBin, Option.ite_none_left_eq_some] at h
    exact Option.some.inj h.2 ▸ wrap_lt w _

theorem evalBin_identity {op : IntBinOp} {c w x y : Nat} (h : isIdentity op c = true)
    (hw : 0 < w) (hx : x < 2 ^ w) (heval : evalBin op w x c = some y) : y = x := by
  have hwrap : wrap w x = x := wrap_natCast_of_lt hx
  cases op with
  | add | sub =>
    obtain rfl : c = 0 := beq_iff_eq.mp h
    simp only [evalBin, Nat.cast_zero, Int.add_zero, Int.sub_zero, hwrap] at heval
    exact (Option.some.inj heval).symm
  | mul =>
    obtain rfl : c = 1 := beq_iff_eq.mp h
    simp only [evalBin, Nat.cast_one, Int.mul_one, hwrap] at heval
    exact (Option.some.inj heval).symm
  | or | xor =>
    obtain rfl : c = 0 := beq_iff_eq.mp h
    simp only [evalBin, Nat.or_zero, Nat.xor_zero] at heval
    exact (Option.some.inj heval).symm
  | shl | lshr | ashr =>
    obtain rfl : c = 0 := beq_iff_eq.mp h
    simp only [evalBin, hw, if_true, Nat.pow_zero, Int.pow_zero, Nat.div_one, Int.mul_one,
      Int.ediv_one, hwrap, wrap_toSigned hx] at heval
    exact (Option.some.inj heval).symm
  | _ => exact absurd h Bool.noConfusion

theorem evalBin_annihilator {op : IntBinOp} {c w x y : Nat} (h : isAnnihilator op c = true)
    (heval : evalBin op w x c = some y) : y = 0 := by
  cases op with
  | mul =>
    obtain rfl : c = 0 := beq_iff_eq.mp h
    simp only [evalBin, Nat.cast_zero, Int.mul_zero, wrap, Int.zero_emod, Int.toNat_zero] at heval
    exact (Option.some.inj heval).symm
  | and =>
    obtain rfl : c = 0 := beq_iff_eq.mp h
    exact (Option.some.inj heval).symm.trans (Nat.and_zero _)
  | _ => exact absurd h Bool.noConfusion

/-- `(x <op> b) <op> c` is `x <op> (b <op> c)`. -/
theorem evalBin_reassociate {op : IntBinOp} {b c w x y z : Nat} (h : isAddOrMul op = true)
    (hw : w ≤ 128) (hinner : evalBin op w x b = some y) (houter : evalBin op w y c = some z) :
    evalBin op w x (maskToWidth (combine op b c) w) = some z := by
  cases op with
  | add =>
    obtain rfl := Option.some.inj hinner
    obtain rfl := Option.some.inj houter
    rw [combine, maskToWidth_wrap hw, evalBin]
    refine congrArg some (wrap_eq_wrap_iff.mpr ?_)
    calc (x : Int) + wrap w (b + c : Int)
        ≡ x + (b + c) [ZMOD 2 ^ w] := (natCast_wrap_modEq w _).add_left x
      _ = x + b + c := (Int.add_assoc ..).symm
      _ ≡ wrap w (x + b) + c [ZMOD 2 ^ w] := (natCast_wrap_modEq w _).symm.add_right c
  | mul =>
    obtain rfl := Option.some.inj hinner
    obtain rfl := Option.some.inj houter
    simp only [combine, maskToWidth_wrap hw, evalBin]
    refine congrArg some (wrap_eq_wrap_iff.mpr ?_)
    calc (x : Int) * wrap w (b * c : Int)
        ≡ x * (b * c) [ZMOD 2 ^ w] := (natCast_wrap_modEq w _).mul_left x
      _ = x * b * c := (Int.mul_assoc ..).symm
      _ ≡ wrap w (x * b) * c [ZMOD 2 ^ w] := (natCast_wrap_modEq w _).symm.mul_right c
  | _ => exact absurd h Bool.noConfusion

theorem combine_lt (op : IntBinOp) (a b : Nat) : combine op a b < 2 ^ 128 := by
  cases op <;> exact wrap_lt 128 _

/-- A multiplication by a power of two. -/
theorem evalBin_mulToShl {c w x : Nat} (h : isPowerOfTwo c = true) (hc : c < 2 ^ w) :
    evalBin .shl w x c.log2 = evalBin .mul w x c := by
  have hpow : 2 ^ c.log2 = c := (of_decide_eq_true h).symm
  have hlog : c.log2 < w := by
    rw [← hpow] at hc
    exact (Nat.pow_lt_pow_iff_right (by decide)).mp hc
  have hcast : (c : Int) = 2 ^ c.log2 := by
    rw [← natCast_two_pow, hpow]
  rw [evalBin, evalBin, if_pos hlog, hcast]

/-! ## Soundness -/

section Sound

variable {attrs : Nat → Attrs} {defs : List Operation} {env : Env} {o : Operation} {x w : Nat}

/-- A binary operation that has a result, with what its operands hold. -/
theorem Current.bin (h : Current attrs defs env o) {d : Operation}
    (hd : Relation.ReflTransGen (Feeds defs) o d) {op : IntBinOp} {lhs rhs : Value}
    (hop : d.op = .bin op lhs rhs) (hx : env d.result.id = some x) :
    ∃ w l r, d.result.ty.IsWord w ∧ lhs.ty = d.result.ty ∧ rhs.ty = d.result.ty ∧
      env lhs.id = some l ∧ env rhs.id = some r ∧ l < 2 ^ w ∧
      (evalIntBin op (attrs d.result.id) w l r).bind PVal.bits? = some x := by
  have htyped := h.typed d hd
  simp only [Operation.Typed, hop] at htyped
  obtain ⟨hlty, hrty, w, hword⟩ := htyped
  obtain ⟨w', hw', heval⟩ := h.holds d hd x hx
  obtain rfl : w = w' := Option.some.inj (hword.intWidth.symm.trans hw')
  simp only [hop, ScalarOp.evalFlagged, hlty, hrty, hword.intWidth, Option.bind_eq_bind,
    Option.bind_eq_some_iff, and_self, if_true] at heval
  obtain ⟨l, hl, r, hr, heval⟩ := heval
  have hmem : lhs ∈ d.op.operands := by
    rw [hop]
    exact List.mem_cons_self ..
  have hlt := h.bounded d hd lhs hmem w l (hlty ▸ hword.intWidth) hl
  exact ⟨w, l, r, hword, hlty, hrty, hl, hr, hlt, Option.bind_eq_some_iff.mpr heval⟩

/-- The identifiers from `next` on are fresh for what feeds the operation. -/
def FreshFrom (defs : List Operation) (o : Operation) (next : Nat) : Prop :=
  ∀ d, Relation.ReflTransGen (Feeds defs) o d → ∀ v ∈ d.op.operands, v.id < next

variable {next : Nat} {f : Fold} {op : IntBinOp} {lhs rhs : Value}

theorem reassociate_eq_some {c : ConstOperand} (h : reassociate defs op lhs c = some f) :
    ∃ d ∈ defs, d.result = lhs ∧ ∃ innerLhs innerRhs inner, d.op = .bin op innerLhs innerRhs ∧
      asConstOperand defs innerLhs = none ∧ asConstOperand defs innerRhs = some inner ∧
      f = .withConstant c.ty (maskToWidth (combine op inner.masked c.masked) c.width) op innerLhs := by
  rw [reassociate] at h
  split at h
  · rename_i op' innerLhs innerRhs result hfind
    have hresult := List.find?_some hfind
    rw [decide_eq_true_eq] at hresult
    split at h
    · rename_i hinner
      obtain ⟨inner, hc, rfl⟩ := Option.map_eq_some_iff.mp h
      exact ⟨_, List.mem_of_find?_eq_some hfind, hresult, innerLhs, innerRhs, inner,
        hinner.1 ▸ rfl, hinner.2, hc, rfl⟩
    · exact absurd h (Option.some_ne_none _ ∘ Eq.symm)
  · exact absurd h (Option.some_ne_none _ ∘ Eq.symm)

theorem reassociate_sound (h : Current attrs defs env o) (hfresh : FreshFrom defs o next)
    (hop : o.op = .bin op lhs rhs) (hx : env o.result.id = some x) {c : ConstOperand}
    (hc : asConstOperand defs rhs = some c) (hkind : isAddOrMul op = true)
    (hfold : reassociate defs op lhs c = some f) : f.Computes (attrs o.result.id) env next o x := by
  obtain ⟨w, l, r, hword, hlty, hrty, hl, hr, -, heval⟩ := h.bin .refl hop hx
  have hrmem : rhs ∈ o.op.operands := by simp [hop, ScalarOp.operands]
  have hlmem : lhs ∈ o.op.operands := by simp [hop, ScalarOp.operands]
  have hof := h.constant .refl hrmem hc (hrty ▸ hword.intWidth)
  obtain ⟨d, hd, rfl, innerLhs, innerRhs, inner, hdop, -, hinner, rfl⟩ := reassociate_eq_some hfold
  have hfeeds := Current.feeds .refl hd hlmem
  -- The inner operation has a result, since the outer one has.
  obtain ⟨w', l', r', hword', hlty', hrty', hl', hr', -, heval'⟩ := h.bin hfeeds hdop hl
  obtain rfl : w' = w :=
    Option.some.inj (hword'.intWidth.symm.trans ((congrArg _ hlty).trans hword.intWidth))
  have hrmem' : innerRhs ∈ d.op.operands := by simp [hdop, ScalarOp.operands]
  have hlmem' : innerLhs ∈ d.op.operands := by simp [hdop, ScalarOp.operands]
  have hof' := h.constant hfeeds hrmem' hinner (hrty' ▸ hword'.intWidth)
  obtain rfl := hof.holds r hr
  obtain rfl := hof'.holds r' hr'
  have hle : w' ≤ 128 := hof.valid.le
  have hmask : maskToWidth (combine op inner.masked c.masked) w' < 2 ^ w' := by
    rw [maskToWidth_of_lt hle (combine_lt op _ _)]
    exact Nat.mod_lt _ (Nat.two_pow_pos w')
  rw [hof.valid.width_eq]
  exact Fold.withConstant_computes (hof.ty_eq.trans hrty) (hlty'.trans hlty) hof.valid.ty_width
    (hfresh d hfeeds innerLhs hlmem') hl' hmask
    (evalBin_reassociate hkind hle (evalIntBin_bits heval') (evalIntBin_bits heval))

theorem mulToShl_sound (h : Current attrs defs env o) (hfresh : FreshFrom defs o next)
    (hop : o.op = .bin op lhs rhs) (hx : env o.result.id = some x) {c : ConstOperand}
    (hc : asConstOperand defs rhs = some c) (hfold : mulToShl op lhs c = some f) :
    f.Computes (attrs o.result.id) env next o x := by
  obtain ⟨w, l, r, hword, hlty, hrty, hl, hr, -, heval⟩ := h.bin .refl hop hx
  have hrmem : rhs ∈ o.op.operands := by simp [hop, ScalarOp.operands]
  have hlmem : lhs ∈ o.op.operands := by simp [hop, ScalarOp.operands]
  have hof := h.constant .refl hrmem hc (hrty ▸ hword.intWidth)
  obtain rfl := hof.holds r hr
  rw [mulToShl] at hfold
  split at hfold
  · rename_i hmul
    obtain ⟨rfl, hpow⟩ := hmul
    obtain rfl := Option.some.inj hfold
    have hlog : c.masked.log2 < 2 ^ w :=
      Nat.lt_of_le_of_lt (Nat.log2_le_self _) hof.valid.masked_lt
    exact Fold.withConstant_computes (hof.ty_eq.trans hrty) hlty hof.valid.ty_width
      (hfresh o .refl lhs hlmem) hl hlog
      ((evalBin_mulToShl hpow hof.valid.masked_lt).trans (evalIntBin_bits heval))
  · exact absurd hfold (Option.some_ne_none _ ∘ Eq.symm)

theorem simplifyConstRhs_sound (h : Current attrs defs env o) (hfresh : FreshFrom defs o next)
    (hop : o.op = .bin op lhs rhs) (hx : env o.result.id = some x) {c : ConstOperand}
    (hc : asConstOperand defs rhs = some c) (hfold : simplifyConstRhs defs op lhs c = some f) :
    f.Computes (attrs o.result.id) env next o x := by
  obtain ⟨w, l, r, hword, hlty, hrty, hl, hr, hlt, heval⟩ := h.bin .refl hop hx
  have hrmem : rhs ∈ o.op.operands := by simp [hop, ScalarOp.operands]
  have hof := h.constant .refl hrmem hc (hrty ▸ hword.intWidth)
  obtain rfl := hof.holds r hr
  have hbin := evalIntBin_bits heval
  rw [simplifyConstRhs] at hfold
  split at hfold
  · rename_i hid
    obtain rfl := Option.some.inj hfold
    obtain rfl := evalBin_identity hid hof.valid.pos hlt hbin
    exact Fold.value_computes hlty hl
  split at hfold
  · rename_i hzero
    obtain rfl := Option.some.inj hfold
    obtain rfl := evalBin_annihilator hzero hbin
    exact Fold.constant_computes (hof.ty_eq.trans hrty) hof.valid.ty_width
      (hof.valid.maskToWidth_eq_self (Nat.two_pow_pos w)) (Nat.two_pow_pos w)
  split at hfold
  · rename_i hkind
    rcases hassoc : reassociate defs op lhs c with _ | g
    · rw [hassoc, Option.none_or] at hfold
      exact mulToShl_sound h hfresh hop hx hc hfold
    · rw [hassoc, Option.some_or, Option.some.injEq] at hfold
      exact reassociate_sound h hfresh hop hx hc hkind (hassoc.trans (congrArg some hfold))
  · exact absurd hfold (Option.some_ne_none _ ∘ Eq.symm)

theorem simplifyPartialConst_sound (h : Current attrs defs env o) (hfresh : FreshFrom defs o next)
    (hop : o.op = .bin op lhs rhs) (hx : env o.result.id = some x)
    (hfold : simplifyPartialConst defs op lhs rhs = some f) :
    f.Computes (attrs o.result.id) env next o x := by
  rw [simplifyPartialConst] at hfold
  split at hfold
  · rename_i hswap
    obtain rfl := Option.some.inj hfold
    obtain ⟨w, l, r, hword, hlty, hrty, hl, hr, -, heval⟩ := h.bin .refl hop hx
    refine ⟨w, hword.intWidth, ?_⟩
    simp only [hop, ScalarOp.swapped, ScalarOp.evalFlagged, hl, hr, hlty, hrty, hword.intWidth,
      Option.bind_eq_bind, Option.bind_some, and_self, if_true, evalIntBin_comm hswap.1]
    exact heval
  · obtain ⟨c, hc, hfold⟩ := Option.bind_eq_some_iff.mp hfold
    split at hfold
    · exact absurd hfold (Option.some_ne_none _ ∘ Eq.symm)
    · exact simplifyConstRhs_sound h hfresh hop hx hc hfold

theorem foldIntBinary_sound (h : Current attrs defs env o) (hfresh : FreshFrom defs o next)
    (hop : o.op = .bin op lhs rhs) (hx : env o.result.id = some x)
    (hfold : foldIntBinary defs op lhs rhs = some f) :
    f.Computes (attrs o.result.id) env next o x := by
  rw [foldIntBinary] at hfold
  split at hfold
  · rename_i cl cr hcl hcr
    obtain ⟨w, l, r, hword, hlty, hrty, hl, hr, -, heval⟩ := h.bin .refl hop hx
    have hrmem : rhs ∈ o.op.operands := by simp [hop, ScalarOp.operands]
    have hlmem : lhs ∈ o.op.operands := by simp [hop, ScalarOp.operands]
    have hofl := h.constant .refl hlmem hcl (hlty ▸ hword.intWidth)
    have hofr := h.constant .refl hrmem hcr (hrty ▸ hword.intWidth)
    obtain rfl := hofl.holds l hl
    obtain rfl := hofr.holds r hr
    obtain ⟨bits, hbits, rfl⟩ := Option.map_eq_some_iff.mp hfold
    have hmasked := foldBits_eval hofl.valid hofr.valid op
    rw [hbits, Option.map_some, evalIntBin_bits heval, Option.some.injEq] at hmasked
    exact Fold.constant_computes (hofl.ty_eq.trans hlty) hofl.valid.ty_width hmasked
      (evalBin_lt hofl.valid.masked_lt hofr.valid.masked_lt (evalIntBin_bits heval))
  · exact simplifyPartialConst_sound h hfresh hop hx hfold

theorem foldICmp_sound (h : Current attrs defs env o) {predicate : ICmpPredicate}
    (hop : o.op = .icmp predicate lhs rhs) (hx : env o.result.id = some x)
    (hfold : foldICmp defs predicate lhs rhs = some f) :
    f.Computes (attrs o.result.id) env next o x := by
  obtain ⟨cl, hcl, hfold⟩ := Option.bind_eq_some_iff.mp hfold
  obtain ⟨cr, hcr, rfl⟩ := Option.map_eq_some_iff.mp hfold
  have htyped := h.typed o .refl
  simp only [Operation.Typed, hop] at htyped
  obtain ⟨hty, hresult, w, hword⟩ := htyped
  have hrmem : rhs ∈ o.op.operands := by simp [hop, ScalarOp.operands]
  have hlmem : lhs ∈ o.op.operands := by simp [hop, ScalarOp.operands]
  have hofl := h.constant .refl hlmem hcl hword.intWidth
  have hofr := h.constant .refl hrmem hcr (hty ▸ hword.intWidth)
  obtain ⟨w', hw', heval⟩ := h.holds o .refl x hx
  obtain rfl : 1 = w' := by
    rw [hresult] at hw'
    exact Option.some.inj hw'
  simp only [hop, ScalarOp.evalFlagged, ScalarOp.eval, ← hty, hword.intWidth, Option.bind_eq_bind,
    Option.bind_eq_some_iff, Option.bind_some, and_self, if_true] at heval
  obtain ⟨l, hl, r, hr, heval⟩ := heval
  obtain rfl := hofl.holds l hl
  obtain rfl := hofr.holds r hr
  rw [← foldPredicate_eval hofl.valid hofr.valid, Option.some.injEq] at heval
  have hbit : ∀ b : Bool, maskToWidth b.toNat 1 = b.toNat := by decide
  refine Fold.constant_computes hresult.symm rfl ((hbit _).trans heval) ?_
  rw [← heval]
  exact Nat.lt_of_le_of_lt (Bool.toNat_le _) (by decide)

/-- A cast that has a result, with what its operand holds. -/
theorem Current.cast (h : Current attrs defs env o) {d : Operation}
    (hd : Relation.ReflTransGen (Feeds defs) o d) {kind : IntCast} {arg : Value}
    (hop : d.op = .cast kind arg) (hx : env d.result.id = some x) :
    ∃ v w y, arg.ty.IsWord v ∧ d.result.ty.IsWord w ∧ (if kind = .trunc then w < v else v < w) ∧
      env arg.id = some y ∧ y < 2 ^ v ∧ evalCast kind v w y = x := by
  have htyped := h.typed d hd
  simp only [Operation.Typed, hop] at htyped
  obtain ⟨v, w, harg, hresult, hwidths⟩ := htyped
  obtain ⟨w', hw', heval⟩ := h.holds d hd x hx
  obtain rfl : w = w' := Option.some.inj (hresult.intWidth.symm.trans hw')
  have heval := ScalarOp.eval_of_evalFlagged heval
  simp only [hop, ScalarOp.eval, harg.intWidth, Option.bind_eq_bind, Option.bind_eq_some_iff,
    Option.bind_some, Option.some.injEq] at heval
  obtain ⟨y, hy, heval⟩ := heval
  have hmem : arg ∈ d.op.operands := by
    rw [hop]
    exact List.mem_cons_self ..
  exact ⟨v, w, y, harg, hresult, hwidths, hy, h.bounded d hd arg hmem v y harg.intWidth hy, heval⟩

theorem truncOfZext_sound (h : Current attrs defs env o) {kind : IntCast} {arg : Value}
    (hop : o.op = .cast kind arg) (hx : env o.result.id = some x)
    (hfold : truncOfZext defs kind arg o.result.ty = some f) :
    f.Computes (attrs o.result.id) env next o x := by
  unfold truncOfZext at hfold
  split at hfold
  · rename_i source result hfind
    have hresult := List.find?_some hfind
    rw [decide_eq_true_eq] at hresult
    subst hresult
    have hmem : result ∈ o.op.operands := by simp [hop, ScalarOp.operands]
    have hfeeds := Current.feeds (e := ⟨.cast .zext source, result⟩) .refl
      (List.mem_of_find?_eq_some hfind) hmem
    split at hfold
    · rename_i hty
      obtain rfl := Option.some.inj hfold
      obtain ⟨v, w, y, -, hword, -, hy, -, heval⟩ := h.cast .refl hop hx
      obtain ⟨v', w', y', hword', -, -, hy', hlt, heval'⟩ := h.cast hfeeds rfl hy
      obtain rfl : v' = w := Option.some.inj
        (hword'.intWidth.symm.trans ((congrArg _ hty).trans hword.intWidth))
      -- Zero extension keeps the bits and truncation finds them again.
      have hbits : x = y' := by
        rw [← heval, ← heval']
        exact Nat.mod_eq_of_lt hlt
      rw [hbits]
      exact Fold.value_computes hty hy'
    · exact absurd hfold (Option.some_ne_none _ ∘ Eq.symm)
  · exact absurd hfold (Option.some_ne_none _ ∘ Eq.symm)

theorem integerType_eq_some {ty : Ty} {t : IntegerType} (h : integerType ty = some t) :
    t.ty = ty := by
  unfold integerType at h
  split at h
  · obtain rfl := Option.some.inj h
    rfl
  · exact absurd h (Option.some_ne_none _ ∘ Eq.symm)

theorem evalCast_lt {kind : IntCast} {v w y : Nat} (hy : y < 2 ^ v)
    (hwidths : if kind = .trunc then w < v else v < w) : evalCast kind v w y < 2 ^ w := by
  cases kind with
  | trunc => exact Nat.mod_lt _ (Nat.two_pow_pos w)
  | zext => exact Nat.lt_trans hy (Nat.pow_lt_pow_right (by decide) hwidths)
  | sext => exact wrap_lt w _

theorem foldIntCast_sound (h : Current attrs defs env o) {kind : IntCast} {arg : Value}
    (hop : o.op = .cast kind arg) (hx : env o.result.id = some x)
    (hfold : foldIntCast defs kind arg o.result.ty = some f) :
    f.Computes (attrs o.result.id) env next o x := by
  rw [foldIntCast] at hfold
  rcases htrunc : truncOfZext defs kind arg o.result.ty with _ | g
  · rw [htrunc, Option.none_or] at hfold
    obtain ⟨c, hc, hfold⟩ := Option.bind_eq_some_iff.mp hfold
    obtain ⟨t, ht, rfl⟩ := Option.map_eq_some_iff.mp hfold
    obtain ⟨v, w, y, harg, hword, hwidths, hy, hlt, rfl⟩ := h.cast .refl hop hx
    have hmem : arg ∈ o.op.operands := by simp [hop, ScalarOp.operands]
    have hof := h.constant .refl hmem hc harg.intWidth
    obtain rfl := hof.holds y hy
    have hty := integerType_eq_some ht
    have htw : t.width = w := by
      have hword' := hword.intWidth
      rw [← hty] at hword'
      exact Option.some.inj hword'
    have hwiden : kind = .zext → v ≤ w := by
      rintro rfl
      exact Nat.le_of_lt hwidths
    exact Fold.constant_computes hty htw (foldCastBits_eval hof.valid hword.2.2 kind hwiden)
      (evalCast_lt hlt hwidths)
  · rw [htrunc, Option.some_or, Option.some.injEq] at hfold
    exact truncOfZext_sound h hop hx (htrunc.trans (congrArg some hfold))

/-- Whatever an operation is folded to computes its result, wherever that is
    neither poison nor undefined. -/
theorem foldOp_computes (h : Current attrs defs env o) (hfresh : FreshFrom defs o next)
    (hx : env o.result.id = some x) (hfold : foldOp defs o = some f) :
    f.Computes (attrs o.result.id) env next o x := by
  rw [foldOp] at hfold
  split at hfold
  · exact foldICmp_sound h (by assumption) hx hfold
  · exact foldIntBinary_sound h hfresh (by assumption) hx hfold
  · exact foldIntCast_sound h (by assumption) hx hfold
  · exact absurd hfold (Option.some_ne_none _ ∘ Eq.symm)

end Sound

end Crabbit.Llvm
