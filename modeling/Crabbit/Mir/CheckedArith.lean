/-
  Crabbit.Mir.CheckedArith

  The sequences for integer operations that report overflow, and for signed
  saturating addition and subtraction (`importer/arith.rs`).
-/

import Crabbit.Mir.Ops
import Mathlib.Tactic.Ring

namespace Crabbit.Mir

open IntegerType

/-- The operations of MIR that report overflow, and the others by name. -/
inductive BinOp where
  | addWithOverflow
  | subWithOverflow
  | mulWithOverflow
  | other (name : String)
  deriving DecidableEq

/-- The value and the flag of `pack_overflow_result`. -/
abbrev Packed (ty : IntegerType) : Type := Value ty × Value boolStorageTy

section Lowering

variable (ops : MirOps)

def packOverflowResult {ty : IntegerType} (wrapped : Value ty) (overflow : Value boolImmediateTy) :
    Packed ty :=
  (wrapped, castValueToType ops overflow boolStorageTy)

/-! ## The high half of a product -/

/-- `emit_umulh128`: from the products of 64-bit halves. -/
def emitUmulh128 (lhs rhs : Value u128Ty) : Value u128Ty :=
  let mask := ops.constant u128Ty (2 ^ 64 - 1)
  let sixtyFour := ops.constant u128Ty 64
  let aLo := ops.bitAnd lhs mask
  let aHi := ops.shr lhs sixtyFour
  let bLo := ops.bitAnd rhs mask
  let bHi := ops.shr rhs sixtyFour
  let loLo := ops.mul aLo bLo
  let crossA := ops.mul aHi bLo
  let crossB := ops.mul aLo bHi
  let hiHi := ops.mul aHi bHi
  -- The carry out of bit 127 of the full product.
  let crossALo := ops.bitAnd crossA mask
  let crossBLo := ops.bitAnd crossB mask
  let loLoHi := ops.shr loLo sixtyFour
  let midSum := ops.add (ops.add crossALo crossBLo) loLoHi
  let carry := ops.shr midSum sixtyFour
  let crossAHi := ops.shr crossA sixtyFour
  let crossBHi := ops.shr crossB sixtyFour
  ops.add (ops.add (ops.add hiHi crossAHi) crossBHi) carry

/-- `emit_sign_mask128`: all ones when the top bit is set. -/
def emitSignMask128 (value : Value u128Ty) : Value u128Ty :=
  let signBit := ops.shr value (ops.constant u128Ty 127)
  ops.sub (ops.constant u128Ty 0) signBit

/-! ## Overflow -/

def lowerUnsignedMulOverflow {ty : IntegerType} (lhs rhs : Value ty) : Except String (Packed ty) :=
  if h : ty.width = 128 then
    let wrapped := ops.mul lhs rhs
    let high := emitUmulh128 ops (lhs.cast h) (rhs.cast h)
    .ok (packOverflowResult ops wrapped (ops.ne high (ops.constant u128Ty 0)))
  else if ty.width > 64 then
    .error ("unsupported " ++ toString ty.width ++ "-bit MIR mul-with-overflow")
  else
    let wideTy : IntegerType := ⟨ty.width * 2, .unsigned⟩
    let wideValue := ops.mul (castValueToType ops lhs wideTy) (castValueToType ops rhs wideTy)
    let wrapped := castValueToType ops wideValue ty
    let narrowMax := ops.constant wideTy ((2 ^ 128 - 1) >>> (128 - ty.width))
    .ok (packOverflowResult ops wrapped (ops.gt wideValue narrowMax))

/-- The exact high half of the product of signed numbers is that of the bits,
    less each operand where the other is negative. -/
def lowerSignedMulOverflow128 {ty : IntegerType} (lhs rhs : Value ty) : Packed ty :=
  let lhsBits := castValueToType ops lhs u128Ty
  let rhsBits := castValueToType ops rhs u128Ty
  let wrapped := ops.mul lhs rhs
  let unsignedHigh := emitUmulh128 ops lhsBits rhsBits
  let lhsFix := ops.bitAnd (emitSignMask128 ops lhsBits) rhsBits
  let rhsFix := ops.bitAnd (emitSignMask128 ops rhsBits) lhsBits
  let signedHigh := ops.sub (ops.sub unsignedHigh lhsFix) rhsFix
  let wrappedBits := castValueToType ops wrapped u128Ty
  let expectedHigh := emitSignMask128 ops wrappedBits
  packOverflowResult ops wrapped (ops.ne signedHigh expectedHigh)

def lowerSignedMulOverflow {ty : IntegerType} (lhs rhs : Value ty) : Except String (Packed ty) :=
  if ty.width = 128 then .ok (lowerSignedMulOverflow128 ops lhs rhs)
  else if ty.width > 64 then
    .error ("unsupported " ++ toString ty.width ++ "-bit MIR mul-with-overflow")
  else
    let wideTy : IntegerType := ⟨ty.width * 2, .signed⟩
    let wideValue := ops.mul (castValueToType ops lhs wideTy) (castValueToType ops rhs wideTy)
    let wrapped := castValueToType ops wideValue ty
    let widenedBack := castValueToType ops wrapped wideTy
    .ok (packOverflowResult ops wrapped (ops.ne wideValue widenedBack))

def lowerUnsignedOverflowBinary {ty : IntegerType} (op : BinOp) (lhs rhs : Value ty) :
    Except String (Packed ty) :=
  match op with
  | .mulWithOverflow => lowerUnsignedMulOverflow ops lhs rhs
  | .addWithOverflow =>
    let wrapped := ops.add lhs rhs
    .ok (packOverflowResult ops wrapped (ops.lt wrapped lhs))
  | .subWithOverflow =>
    let wrapped := ops.sub lhs rhs
    .ok (packOverflowResult ops wrapped (ops.lt lhs rhs))
  | .other name => .error ("unsupported MIR overflow binary op: " ++ name)

/-- The value the sign bit of which says that an addition or a subtraction of
    signed numbers overflowed. -/
def overflowSign {ty : IntegerType} (isAdd : Bool) (lhs rhs wrapped : Value ty) : Value ty :=
  if isAdd then ops.bitAnd (ops.bitXor wrapped lhs) (ops.bitXor wrapped rhs)
  else ops.bitAnd (ops.bitXor lhs rhs) (ops.bitXor lhs wrapped)

def lowerSignedOverflowBinary {ty : IntegerType} (op : BinOp) (lhs rhs : Value ty) :
    Except String (Packed ty) :=
  match op with
  | .mulWithOverflow => lowerSignedMulOverflow ops lhs rhs
  | .addWithOverflow =>
    let wrapped := ops.add lhs rhs
    .ok (packOverflowResult ops wrapped
      (ops.lt (overflowSign ops true lhs rhs wrapped) (ops.constant ty 0)))
  | .subWithOverflow =>
    let wrapped := ops.sub lhs rhs
    .ok (packOverflowResult ops wrapped
      (ops.lt (overflowSign ops false lhs rhs wrapped) (ops.constant ty 0)))
  | .other name => .error ("unsupported MIR overflow binary op: " ++ name)

def lowerOverflowBinary {ty : IntegerType} (op : BinOp) (lhs rhs : Value ty) :
    Except String (Packed ty) :=
  if ¬ ty.IsSigned then lowerUnsignedOverflowBinary ops op lhs rhs
  else lowerSignedOverflowBinary ops op lhs rhs

/-! ## Saturation -/

/-- `lower_signed_saturating`: the wrapped result, or the largest or least value
    of the type where it overflows. -/
def lowerSignedSaturating {ty : IntegerType} (isAdd : Bool) (lhs rhs : Value ty) : Value ty :=
  let wrapped := if isAdd then ops.add lhs rhs else ops.sub lhs rhs
  let sign := overflowSign ops isAdd lhs rhs wrapped
  let topBit := ops.constant ty (ty.width - 1)
  let overflowMask := ops.signAwareShr sign topBit
  let lhsSign := ops.signAwareShr lhs topBit
  let saturated := ops.bitXor lhsSign (ops.constant ty ((2 ^ 128 - 1) >>> (129 - ty.width)))
  let keepMask := ops.bitXor overflowMask (ops.constant ty ((2 ^ 128 - 1) >>> (128 - ty.width)))
  let kept := ops.bitAnd wrapped keepMask
  let satSel := ops.bitAnd saturated overflowMask
  ops.bitOr kept satSel

end Lowering

end Crabbit.Mir
