/-
  Crabbit.Llvm.Scalar

  The integer operations of the LLVM dialect: SSA values, operations over
  them, and what a straight line of operations computes.

  An integer of width `w` is the natural number below `2 ^ w` its bits spell.
  Evaluation is partial.  It has no result where LLVM gives none: a shift by
  the width or more, a division by zero, operands of two widths.
-/

import Crabbit.Llvm.Types
import Crabbit.Lib.TwosComplement

namespace Crabbit.Llvm

open Crabbit.Lib (wrap toSigned)

/-- An SSA value: which definition it is, and its type. -/
structure Value where
  id : Nat
  ty : Ty
  deriving DecidableEq

/-- The handle of an integer type. -/
structure IntegerType where
  width : Nat
  sign : Signedness
  deriving DecidableEq

/-- The type a handle points to. -/
def IntegerType.ty (t : IntegerType) : Ty := .int t.width t.sign

/-- The signless integer type of a width. -/
def IntegerType.get (width : Nat) : IntegerType := ⟨width, .signless⟩

/-- The width of an integer type. -/
def Ty.intWidth : Ty → Option Nat
  | .int w _ => some w
  | _ => none

inductive IntBinOp where
  | add | sub | mul | and | or | xor | shl | lshr | ashr
  | sdiv | udiv | srem | urem
  deriving DecidableEq

inductive ICmpPredicate where
  | eq | ne | slt | sle | sgt | sge | ult | ule | ugt | uge
  deriving DecidableEq

inductive IntCast where
  | trunc | zext | sext
  deriving DecidableEq

/-- An operation on integers. -/
inductive ScalarOp where
  | constant (bits : Nat)
  | bin (op : IntBinOp) (lhs rhs : Value)
  | icmp (predicate : ICmpPredicate) (lhs rhs : Value)
  | cast (kind : IntCast) (arg : Value)
  deriving DecidableEq

/-- An operation together with the value it defines. -/
structure Operation where
  op : ScalarOp
  result : Value
  deriving DecidableEq

/-! ## Constants -/

/-- `bits` with everything from bit `width` up cleared; the source computes in
    `u128`. -/
def maskToWidth (bits width : Nat) : Nat :=
  if 128 ≤ width then bits else bits &&& (2 ^ width - 1)

/-- The low `width` bits as a signed number.  At widths 0 and from 128 on the
    source casts the masked bits to `i128` as they are. -/
def signExtend (bits width : Nat) : Int :=
  let masked := maskToWidth bits width
  if width = 0 ∨ 128 ≤ width then toSigned 128 masked
  else if masked.testBit (width - 1) then (masked : Int) - 2 ^ width else masked

/-- A constant operand as the folding passes see it. -/
structure ConstOperand where
  bits : Nat
  width : Nat
  ty : IntegerType
  deriving DecidableEq

namespace ConstOperand

def masked (c : ConstOperand) : Nat := maskToWidth c.bits c.width

def signed (c : ConstOperand) : Int := signExtend c.bits c.width

end ConstOperand

/-- The constant a value is defined as, looked up among the definitions. -/
def asConstOperand (defs : List Operation) (value : Value) : Option ConstOperand :=
  match defs.find? (fun o => o.result = value) with
  | some ⟨.constant bits, ⟨_, .int width sign⟩⟩ => some ⟨bits, width, ⟨width, sign⟩⟩
  | _ => none

/-! ## Evaluation -/

/-- Division in the dividend's width: truncated, and wrapping for the one
    quotient that does not fit. -/
def evalBin (op : IntBinOp) (w x y : Nat) : Option Nat :=
  match op with
  | .add => some (wrap w (x + y))
  | .sub => some (wrap w (x - y))
  | .mul => some (wrap w (x * y))
  | .and => some (x &&& y)
  | .or => some (x ||| y)
  | .xor => some (x ^^^ y)
  | .shl => if y < w then some (wrap w (x * 2 ^ y)) else none
  | .lshr => if y < w then some (x / 2 ^ y) else none
  | .ashr => if y < w then some (wrap w (toSigned w x / 2 ^ y)) else none
  | .udiv => if y = 0 then none else some (x / y)
  | .urem => if y = 0 then none else some (x % y)
  | .sdiv => if y = 0 then none else some (wrap w ((toSigned w x).tdiv (toSigned w y)))
  | .srem => if y = 0 then none else some (wrap w ((toSigned w x).tmod (toSigned w y)))

def evalICmp (predicate : ICmpPredicate) (w x y : Nat) : Bool :=
  match predicate with
  | .eq => decide (x = y)
  | .ne => decide (x ≠ y)
  | .slt => decide (toSigned w x < toSigned w y)
  | .sle => decide (toSigned w x ≤ toSigned w y)
  | .sgt => decide (toSigned w y < toSigned w x)
  | .sge => decide (toSigned w y ≤ toSigned w x)
  | .ult => decide (x < y)
  | .ule => decide (x ≤ y)
  | .ugt => decide (y < x)
  | .uge => decide (y ≤ x)

/-- A cast from width `v` to width `w`. -/
def evalCast (kind : IntCast) (v w x : Nat) : Nat :=
  match kind with
  | .trunc => x % 2 ^ w
  | .zext => x
  | .sext => wrap w (toSigned v x)

/-- The bits of the values defined so far. -/
abbrev Env := Nat → Option Nat

/-- What an operation defines, given the width of its result. -/
def ScalarOp.eval (env : Env) (resultWidth : Nat) : ScalarOp → Option Nat
  | .constant bits => some (bits % 2 ^ resultWidth)
  | .bin op lhs rhs => do
    let x ← env lhs.id
    let y ← env rhs.id
    if lhs.ty.intWidth = some resultWidth ∧ rhs.ty.intWidth = some resultWidth then
      evalBin op resultWidth x y
    else none
  | .icmp predicate lhs rhs => do
    let x ← env lhs.id
    let y ← env rhs.id
    let w ← lhs.ty.intWidth
    if rhs.ty.intWidth = some w ∧ resultWidth = 1 then
      some (evalICmp predicate w x y).toNat
    else none
  | .cast kind arg => do
    let x ← env arg.id
    let v ← arg.ty.intWidth
    some (evalCast kind v resultWidth x)

section Eval

variable {env : Env} {a b : Value} {v w x y : Nat}

theorem eval_bin {op : IntBinOp} (hx : env a.id = some x) (hy : env b.id = some y)
    (ha : a.ty.intWidth = some w) (hb : b.ty.intWidth = some w) :
    (ScalarOp.bin op a b).eval env w = evalBin op w x y := by
  simp only [ScalarOp.eval, hx, hy, ha, hb, Option.bind_eq_bind, Option.bind_some, and_self,
    if_true]

theorem eval_icmp {predicate : ICmpPredicate} (hx : env a.id = some x) (hy : env b.id = some y)
    (ha : a.ty.intWidth = some w) (hb : b.ty.intWidth = some w) :
    (ScalarOp.icmp predicate a b).eval env 1 = some (evalICmp predicate w x y).toNat := by
  simp only [ScalarOp.eval, hx, hy, ha, hb, Option.bind_eq_bind, Option.bind_some, and_self,
    if_true]

theorem eval_cast {kind : IntCast} (hx : env a.id = some x) (ha : a.ty.intWidth = some v) :
    (ScalarOp.cast kind a).eval env w = some (evalCast kind v w x) := by
  simp only [ScalarOp.eval, hx, ha, Option.bind_eq_bind, Option.bind_some]

end Eval

/-- One operation defines one value. -/
def Operation.step (env : Env) (o : Operation) : Option Env := do
  let w ← o.result.ty.intWidth
  let x ← o.op.eval env w
  some (Function.update env o.result.id (some x))

/-- A straight line of operations. -/
def runOps : List Operation → Env → Option Env
  | [], env => some env
  | o :: ops, env => (o.step env).bind (runOps ops)

theorem runOps_append (ops ops' : List Operation) (env : Env) :
    runOps (ops ++ ops') env = (runOps ops env).bind (runOps ops') := by
  induction ops generalizing env with
  | nil => rfl
  | cons o ops ih =>
    rw [List.cons_append, runOps, runOps]
    cases o.step env with
    | none => rfl
    | some env' => exact ih env'

/-! ## Masks and sign bits -/

theorem maskToWidth_eq {bits width : Nat} (h : width < 128) :
    maskToWidth bits width = bits % 2 ^ width := by
  unfold maskToWidth
  rw [if_neg (by omega), Nat.and_two_pow_sub_one_eq_mod]

theorem maskToWidth_lt {bits width : Nat} (h : width < 128) : maskToWidth bits width < 2 ^ width := by
  rw [maskToWidth_eq h]
  exact Nat.mod_lt _ (Nat.two_pow_pos width)

/-- Sign extension is the two's complement reading of the masked bits. -/
theorem signExtend_eq {bits width : Nat} (h0 : 0 < width) (h : width < 128) :
    signExtend bits width = toSigned width (bits % 2 ^ width) := by
  have hlt : bits % 2 ^ width < 2 ^ width := Nat.mod_lt _ (Nat.two_pow_pos width)
  have hhalf := Lib.two_pow_eq_two_mul h0
  -- The sign bit is set exactly in the upper half.
  have hbit : (bits % 2 ^ width).testBit (width - 1) = true ↔ 2 ^ (width - 1) ≤ bits % 2 ^ width := by
    rw [Nat.testBit_eq_decide_div_mod_eq, decide_eq_true_eq]
    have hpos := Nat.two_pow_pos (width - 1)
    rcases Nat.lt_or_ge (bits % 2 ^ width) (2 ^ (width - 1)) with hlo | hhi
    · rw [Nat.div_eq_of_lt hlo]
      omega
    · have : bits % 2 ^ width / 2 ^ (width - 1) = 1 := by
        apply Nat.div_eq_of_lt_le <;> omega
      rw [this]
      simpa using hhi
  unfold signExtend
  simp only [maskToWidth_eq h]
  rw [if_neg (by omega)]
  rcases Nat.lt_or_ge (bits % 2 ^ width) (2 ^ (width - 1)) with hlo | hhi
  · rw [if_neg (by rw [hbit]; omega), Lib.toSigned_of_lt_half h0 hlo]
  · rw [if_pos (hbit.mpr hhi), Lib.toSigned_of_half_le h0 hhi hlt]

end Crabbit.Llvm
