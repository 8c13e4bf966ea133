/-
  Crabbit.Llvm.ConstantFold

  Folding of integer operations with constant operands
  (`passes/llvm/simplify.rs`: `fold_icmp`, `fold_int_binary`,
  `simplify_partial_const`, `fold_int_cast`), and what a fold computes.

  The folder computes in `u128`, whatever the width: operands are masked or sign
  extended to it, and results are masked back to the width.
-/

import Crabbit.Llvm.DivStrengthReduce
import Crabbit.Llvm.Poison

namespace Crabbit.Llvm

open Crabbit.Lib

/-! ## Both operands constant -/

/-- `fold_icmp`. -/
def foldPredicate (predicate : ICmpPredicate) (lhs rhs : ConstOperand) : Bool :=
  match predicate with
  | .eq => decide (lhs.masked = rhs.masked)
  | .ne => decide (lhs.masked ≠ rhs.masked)
  | .ult => decide (lhs.masked < rhs.masked)
  | .ule => decide (lhs.masked ≤ rhs.masked)
  | .ugt => decide (rhs.masked < lhs.masked)
  | .uge => decide (rhs.masked ≤ lhs.masked)
  | .slt => decide (lhs.signed < rhs.signed)
  | .sle => decide (lhs.signed ≤ rhs.signed)
  | .sgt => decide (rhs.signed < lhs.signed)
  | .sge => decide (rhs.signed ≤ lhs.signed)

/-- The bits `fold_int_binary` computes, as a `u128`; it bails on a shift by the
    width or more and on a division by zero. -/
def foldBits (op : IntBinOp) (lhs rhs : ConstOperand) : Option Nat :=
  match op with
  | .add => some (wrap 128 (lhs.masked + rhs.masked))
  | .sub => some (wrap 128 (lhs.masked - rhs.masked))
  | .mul => some (wrap 128 (lhs.masked * rhs.masked))
  | .and => some (lhs.masked &&& rhs.masked)
  | .or => some (lhs.masked ||| rhs.masked)
  | .xor => some (lhs.masked ^^^ rhs.masked)
  | .shl =>
      if lhs.width ≤ rhs.masked then none else some (wrap 128 (lhs.masked * 2 ^ rhs.masked))
  | .lshr => if lhs.width ≤ rhs.masked then none else some (lhs.masked / 2 ^ rhs.masked)
  | .ashr =>
      if lhs.width ≤ rhs.masked then none
      else some (wrap 128 (signExtend lhs.masked lhs.width / 2 ^ rhs.masked))
  | .udiv => if rhs.masked = 0 then none else some (lhs.masked / rhs.masked)
  | .urem => if rhs.masked = 0 then none else some (lhs.masked % rhs.masked)
  | .sdiv => if rhs.masked = 0 then none else some (wrap 128 (lhs.signed.tdiv rhs.signed))
  | .srem => if rhs.masked = 0 then none else some (wrap 128 (lhs.signed.tmod rhs.signed))

/-- The bits of `fold_int_cast`: truncation and zero extension both take the
    masked input. -/
def foldCastBits (kind : IntCast) (input : ConstOperand) : Nat :=
  match kind with
  | .sext => wrap 128 input.signed
  | .zext | .trunc => input.masked

/-! ## Rewrites -/

/-- What an operation is rewritten to. -/
inductive Fold where
  /-- `replace_with_constant`. -/
  | constant (ty : IntegerType) (bits : Nat)
  /-- `replace_op_with_value`, by a value that exists. -/
  | value (v : Value)
  /-- The operands are exchanged in place. -/
  | swap
  /-- A fresh constant, and a fresh operation with it on the right. -/
  | withConstant (ty : IntegerType) (bits : Nat) (op : IntBinOp) (lhs : Value)
  deriving DecidableEq

def isAddOrMul : IntBinOp → Bool
  | .add | .mul => true
  | _ => false

/-- A constant on the right that leaves the left operand as it is. -/
def isIdentity (op : IntBinOp) (c : Nat) : Bool :=
  match op with
  | .add | .sub | .or | .xor | .shl | .lshr | .ashr => c == 0
  | .mul => c == 1
  | _ => false

/-- A constant on the right that leaves nothing of the left operand. -/
def isAnnihilator (op : IntBinOp) (c : Nat) : Bool :=
  match op with
  | .mul | .and => c == 0
  | _ => false

/-- `c1 <op> c2` in `u128`; `op` is an addition or a multiplication. -/
def combine (op : IntBinOp) (a b : Nat) : Nat :=
  match op with
  | .add => wrap 128 (a + b)
  | _ => wrap 128 (a * b)

/-- `(a <op> c1) <op> c2` as `a <op> (c1 <op> c2)`. -/
def reassociate (defs : List Operation) (op : IntBinOp) (lhs : Value) (rhs : ConstOperand) :
    Option Fold :=
  match defs.find? (fun o => o.result = lhs) with
  | some ⟨.bin inner innerLhs innerRhs, _⟩ =>
      if inner = op ∧ asConstOperand defs innerLhs = none then
        (asConstOperand defs innerRhs).map fun c =>
          .withConstant rhs.ty (maskToWidth (combine op c.masked rhs.masked) rhs.width) op innerLhs
      else none
  | _ => none

/-- `x * 2^k` as `x << k`. -/
def mulToShl (op : IntBinOp) (lhs : Value) (rhs : ConstOperand) : Option Fold :=
  if op = .mul ∧ isPowerOfTwo rhs.masked = true then
    some (.withConstant rhs.ty rhs.masked.log2 .shl lhs)
  else none

/-- `simplify_partial_const` once the right operand is the one constant. -/
def simplifyConstRhs (defs : List Operation) (op : IntBinOp) (lhs : Value) (rhs : ConstOperand) :
    Option Fold :=
  if isIdentity op rhs.masked then some (.value lhs)
  else if isAnnihilator op rhs.masked then some (.constant rhs.ty 0)
  else if isAddOrMul op then (reassociate defs op lhs rhs).or (mulToShl op lhs rhs)
  else none

/-- `simplify_partial_const`. -/
def simplifyPartialConst (defs : List Operation) (op : IntBinOp) (lhs rhs : Value) : Option Fold :=
  if isAddOrMul op ∧ (asConstOperand defs lhs).isSome ∧ asConstOperand defs rhs = none then some .swap
  else (asConstOperand defs rhs).bind fun c =>
    if (asConstOperand defs lhs).isSome then none else simplifyConstRhs defs op lhs c

/-- `fold_int_binary`. -/
def foldIntBinary (defs : List Operation) (op : IntBinOp) (lhs rhs : Value) : Option Fold :=
  match asConstOperand defs lhs, asConstOperand defs rhs with
  | some l, some r => (foldBits op l r).map (Fold.constant l.ty)
  | _, _ => simplifyPartialConst defs op lhs rhs

/-- `fold_icmp`. -/
def foldICmp (defs : List Operation) (predicate : ICmpPredicate) (lhs rhs : Value) : Option Fold :=
  (asConstOperand defs lhs).bind fun l => (asConstOperand defs rhs).map fun r =>
    .constant (IntegerType.get 1) (foldPredicate predicate l r).toNat

/-- `trunc(zext(x))` is `x` when it has the type of the result. -/
def truncOfZext (defs : List Operation) (kind : IntCast) (input : Value) (resultTy : Ty) :
    Option Fold :=
  match kind, defs.find? (fun o => o.result = input) with
  | .trunc, some ⟨.cast .zext source, _⟩ => if source.ty = resultTy then some (.value source) else none
  | _, _ => none

/-- The integer type of a type handle. -/
def integerType : Ty → Option IntegerType
  | .int width sign => some ⟨width, sign⟩
  | _ => none

/-- `fold_int_cast`. -/
def foldIntCast (defs : List Operation) (kind : IntCast) (input : Value) (resultTy : Ty) :
    Option Fold :=
  (truncOfZext defs kind input resultTy).or <|
    (asConstOperand defs input).bind fun c => (integerType resultTy).map fun ty =>
      .constant ty (foldCastBits kind c)

/-- `fold_op`, of the integer operations. -/
def foldOp (defs : List Operation) (o : Operation) : Option Fold :=
  match o.op with
  | .icmp predicate lhs rhs => foldICmp defs predicate lhs rhs
  | .bin op lhs rhs => foldIntBinary defs op lhs rhs
  | .cast kind input => foldIntCast defs kind input o.result.ty
  | .constant _ => none

/-! ## Constants in `u128` -/

theorem maskToWidth_of_lt {bits width : Nat} (h : width ≤ 128) (hbits : bits < 2 ^ 128) :
    maskToWidth bits width = bits % 2 ^ width := by
  rcases Nat.lt_or_ge width 128 with hlt | hge
  · exact maskToWidth_eq hlt
  · obtain rfl := Nat.le_antisymm h hge
    rw [maskToWidth, if_pos (Nat.le_refl 128), Nat.mod_eq_of_lt hbits]

/-- Sign extension is the two's complement reading at widths 1 to 128. -/
theorem signExtend_of_lt {bits width : Nat} (h0 : 0 < width) (h : width ≤ 128)
    (hbits : bits < 2 ^ 128) : signExtend bits width = toSigned width (bits % 2 ^ width) := by
  rcases Nat.lt_or_ge width 128 with hlt | hge
  · exact signExtend_eq h0 hlt
  · obtain rfl := Nat.le_antisymm h hge
    rw [Nat.mod_eq_of_lt hbits, signExtend]
    simp only [maskToWidth, Nat.le_refl, if_true, or_true]

/-- A `u128` result masked to a width is the result at the width. -/
theorem maskToWidth_wrap {width : Nat} (h : width ≤ 128) (z : Int) :
    maskToWidth (wrap 128 z) width = wrap width z := by
  rw [maskToWidth_of_lt h (wrap_lt 128 z), wrap_mod_two_pow h]

/-- A constant of a width from 1 to 128, in a `u128`. -/
structure ConstOperand.Valid (c : ConstOperand) (width : Nat) : Prop where
  width_eq : c.width = width
  ty_width : c.ty.width = width
  pos : 0 < width
  le : width ≤ 128
  bits_lt : c.bits < 2 ^ 128

namespace ConstOperand.Valid

variable {c : ConstOperand} {w : Nat}

theorem masked_eq (h : c.Valid w) : c.masked = c.bits % 2 ^ w := by
  rw [ConstOperand.masked, h.width_eq, maskToWidth_of_lt h.le h.bits_lt]

theorem masked_lt (h : c.Valid w) : c.masked < 2 ^ w := by
  rw [h.masked_eq]
  exact Nat.mod_lt _ (Nat.two_pow_pos w)

theorem signed_eq (h : c.Valid w) : c.signed = toSigned w c.masked := by
  rw [ConstOperand.signed, h.width_eq, signExtend_of_lt h.pos h.le h.bits_lt, h.masked_eq]

theorem two_pow_le (h : c.Valid w) : 2 ^ w ≤ 2 ^ 128 := Nat.pow_le_pow_right (by decide) h.le

/-- What fits the width is not masked. -/
theorem maskToWidth_eq_self (h : c.Valid w) {bits : Nat} (hbits : bits < 2 ^ w) :
    maskToWidth bits w = bits := by
  rw [maskToWidth_of_lt h.le (Nat.lt_of_lt_of_le hbits h.two_pow_le), Nat.mod_eq_of_lt hbits]

end ConstOperand.Valid

/-! ## Folding evaluates -/

section Folded

variable {lhs rhs : ConstOperand} {w : Nat} (hl : lhs.Valid w) (hr : rhs.Valid w)

include hl hr

/-- `fold_int_binary` evaluates the operation at its width, and bails exactly
    where it has no result. -/
theorem foldBits_eval (op : IntBinOp) :
    (foldBits op lhs rhs).map (maskToWidth · w) = evalBin op w lhs.masked rhs.masked := by
  have hlt := hl.masked_lt
  have hrt := hr.masked_lt
  have hsize : ∀ {x}, x < 2 ^ w → maskToWidth x w = x := hl.maskToWidth_eq_self
  cases op with
  | add | sub | mul => exact congrArg some (maskToWidth_wrap hl.le _)
  | and => exact congrArg some (hsize (Nat.lt_of_le_of_lt Nat.and_le_left hlt))
  | or => exact congrArg some (hsize (Nat.or_lt_two_pow hlt hrt))
  | xor => exact congrArg some (hsize (Nat.xor_lt_two_pow hlt hrt))
  | shl =>
    rw [foldBits, evalBin, hl.width_eq]
    by_cases h : w ≤ rhs.masked
    · rw [if_pos h, if_neg (Nat.not_lt.mpr h), Option.map_none]
    · rw [if_neg h, if_pos (Nat.lt_of_not_le h), Option.map_some, maskToWidth_wrap hl.le]
  | lshr =>
    rw [foldBits, evalBin, hl.width_eq]
    by_cases h : w ≤ rhs.masked
    · rw [if_pos h, if_neg (Nat.not_lt.mpr h), Option.map_none]
    · rw [if_neg h, if_pos (Nat.lt_of_not_le h), Option.map_some,
        hsize (Nat.lt_of_le_of_lt (Nat.div_le_self _ _) hlt)]
  | ashr =>
    have hsigned : signExtend lhs.masked w = toSigned w lhs.masked := by
      rw [signExtend_of_lt hl.pos hl.le (Nat.lt_of_lt_of_le hlt hl.two_pow_le),
        Nat.mod_eq_of_lt hlt]
    rw [foldBits, evalBin, hl.width_eq, hsigned]
    by_cases h : w ≤ rhs.masked
    · rw [if_pos h, if_neg (Nat.not_lt.mpr h), Option.map_none]
    · rw [if_neg h, if_pos (Nat.lt_of_not_le h), Option.map_some, maskToWidth_wrap hl.le]
  | udiv =>
    rw [foldBits, evalBin]
    split
    · rfl
    · rw [Option.map_some, hsize (Nat.lt_of_le_of_lt (Nat.div_le_self _ _) hlt)]
  | urem =>
    rw [foldBits, evalBin]
    split
    · rfl
    · rw [Option.map_some, hsize (Nat.lt_of_le_of_lt (Nat.mod_le _ _) hlt)]
  | sdiv =>
    rw [foldBits, evalBin, hl.signed_eq, hr.signed_eq]
    split
    · rfl
    · rw [Option.map_some, maskToWidth_wrap hl.le]
  | srem =>
    rw [foldBits, evalBin, hl.signed_eq, hr.signed_eq]
    split
    · rfl
    · rw [Option.map_some, maskToWidth_wrap hl.le]

/-- `fold_icmp` compares. -/
theorem foldPredicate_eval (predicate : ICmpPredicate) :
    foldPredicate predicate lhs rhs = evalICmp predicate w lhs.masked rhs.masked := by
  cases predicate with
  | eq | ne | ult | ule | ugt | uge => rfl
  | slt | sle | sgt | sge => rw [foldPredicate, evalICmp, hl.signed_eq, hr.signed_eq]

end Folded

/-- `fold_int_cast` casts, as far as the result has bits. -/
theorem foldCastBits_eval {input : ConstOperand} {v w : Nat} (h : input.Valid v) (hw : w ≤ 128)
    (kind : IntCast) (hwiden : kind = .zext → v ≤ w) :
    maskToWidth (foldCastBits kind input) w = evalCast kind v w input.masked := by
  have hlt := Nat.lt_of_lt_of_le h.masked_lt h.two_pow_le
  cases kind with
  | trunc => exact maskToWidth_of_lt hw hlt
  | zext =>
    have hv := Nat.lt_of_lt_of_le h.masked_lt
      (Nat.pow_le_pow_right (Nat.zero_lt_succ 1) (hwiden rfl))
    exact (maskToWidth_of_lt hw hlt).trans (Nat.mod_eq_of_lt hv)
  | sext => rw [foldCastBits, maskToWidth_wrap hw, h.signed_eq, evalCast]

end Crabbit.Llvm
