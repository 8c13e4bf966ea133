/-
  Crabbit.Mir.BitIntrinsics

  The branch-free sequences for the bit intrinsics (`importer/intrinsics.rs`):
  counts of ones and of trailing and leading zeros, byte and bit reversal, and
  rotations.  Narrow operands are widened to 64 bits; 128-bit ones are split
  into halves.
-/

import Crabbit.Mir.Ops
import Mathlib.Tactic.Ring

namespace Crabbit.Mir

open IntegerType

/-- The bit intrinsics, by the operation they name (`cttz_nonzero` and
    `ctlz_nonzero` share the sequences of `cttz` and `ctlz`). -/
inductive BitIntrinsic where
  | ctpop
  | cttz
  | ctlz
  | bswap
  | bitreverse
  | rotateLeft
  | rotateRight
  deriving DecidableEq

/-- The type of a count and of a rotation's amount. -/
abbrev u32Ty : IntegerType := ⟨32, .unsigned⟩

/-- `u32::is_power_of_two`. -/
def isPowerOfTwo (n : Nat) : Bool := n != 0 && n &&& (n - 1) == 0

section Emission

variable (ops : MirOps)

def widenToU64 {ty : IntegerType} (value : Value ty) : Except String (Value u64Ty) :=
  if ty.width > 64 then
    .error "128-bit operand reached widen_to_u64 (split into halves instead)"
  else .ok (castValueToType ops value u64Ty)

/-- `split_u128_halves`: the low half and the high half. -/
def splitU128Halves {ty : IntegerType} (input : Value ty) : Value u64Ty × Value u64Ty :=
  let bits := castValueToType ops input u128Ty
  let lo := castValueToType ops bits u64Ty
  let hiWide := ops.shr bits (ops.constant u128Ty 64)
  (lo, castValueToType ops hiWide u64Ty)

def joinU128Halves (lo hi : Value u64Ty) : Value u128Ty :=
  let loWide := castValueToType ops lo u128Ty
  let hiWide := castValueToType ops hi u128Ty
  let shifted := ops.shl hiWide (ops.constant u128Ty 64)
  ops.bitOr shifted loWide

/-! ## Counts -/

def emitPopcount64 (x : Value u64Ty) : Value u64Ty :=
  let shifted := ops.shr x (ops.constant u64Ty 1)
  let and55 := ops.bitAnd shifted (ops.constant u64Ty 0x5555555555555555)
  let x := ops.sub x and55
  let mask33 := ops.constant u64Ty 0x3333333333333333
  let lowPairs := ops.bitAnd x mask33
  let shr2 := ops.shr x (ops.constant u64Ty 2)
  let highPairs := ops.bitAnd shr2 mask33
  let x := ops.add lowPairs highPairs
  let shr4 := ops.shr x (ops.constant u64Ty 4)
  let nibbleSum := ops.add x shr4
  let nibbles := ops.bitAnd nibbleSum (ops.constant u64Ty 0x0f0f0f0f0f0f0f0f)
  let spread := ops.mul nibbles (ops.constant u64Ty 0x0101010101010101)
  ops.shr spread (ops.constant u64Ty 56)

/-- The ones below the lowest set bit, counted. -/
def emitCttz64 (x : Value u64Ty) (width : Nat) : Value u64Ty :=
  let neg := ops.sub (ops.constant u64Ty 0) x
  let lowBit := ops.bitAnd x neg
  let below := ops.sub lowBit (ops.constant u64Ty 1)
  let widthMask := ops.constant u64Ty ((2 ^ 64 - 1) >>> (64 - width))
  let masked := ops.bitAnd below widthMask
  emitPopcount64 ops masked

/-- The count of one half, and that of the other where the first is zero. -/
def addOtherHalf (half halfCount otherCount : Value u64Ty) : Value u64Ty :=
  let zero := ops.constant u64Ty 0
  let isZero := castValueToType ops (ops.eq half zero) u64Ty
  let mask := ops.sub zero isZero
  let extra := ops.bitAnd mask otherCount
  ops.add halfCount extra

def emitCttz128 {ty : IntegerType} (input : Value ty) : Value u64Ty :=
  let halves := splitU128Halves ops input
  let loCount := emitCttz64 ops halves.1 64
  let hiCount := emitCttz64 ops halves.2 64
  addOtherHalf ops halves.1 loCount hiCount

/-- The highest set bit is copied to every place below it. -/
def smear (x : Value u64Ty) : Value u64Ty :=
  [1, 2, 4, 8, 16, 32].foldl
    (fun x shift => ops.bitOr x (ops.shr x (ops.constant u64Ty shift))) x

def emitCtlz64 (x : Value u64Ty) (width : Nat) : Value u64Ty :=
  let aligned := if width < 64 then ops.shl x (ops.constant u64Ty (64 - width)) else x
  let inverted := ops.bitXor (smear ops aligned) (ops.constant u64Ty (2 ^ 64 - 1))
  emitPopcount64 ops inverted

def emitCtlz128 {ty : IntegerType} (input : Value ty) : Value u64Ty :=
  let halves := splitU128Halves ops input
  let hiCount := emitCtlz64 ops halves.2 64
  let loCount := emitCtlz64 ops halves.1 64
  addOtherHalf ops halves.2 hiCount loCount

/-! ## Reversals -/

/-- One lane of `emit_bswap64` moved to its place. -/
def moveLane (x : Value u64Ty) (lanes : Nat) (result : Value u64Ty) (lane : Nat) : Value u64Ty :=
  let shifted := ops.shr x (ops.constant u64Ty (lane * 8))
  let byte := ops.bitAnd shifted (ops.constant u64Ty 0xff)
  let placed := ops.shl byte (ops.constant u64Ty ((lanes - 1 - lane) * 8))
  ops.bitOr result placed

def emitBswap64 (x : Value u64Ty) (width : Nat) : Value u64Ty :=
  (List.range (width / 8)).foldl (moveLane ops x (width / 8)) (ops.constant u64Ty 0)

/-- One pass of `emit_bitreverse64`: neighbouring groups of bits swapped. -/
def swapGroups (x : Value u64Ty) (group : Nat × Nat) : Value u64Ty :=
  let mask := ops.constant u64Ty group.1
  let amount := ops.constant u64Ty group.2
  let down := ops.bitAnd (ops.shr x amount) mask
  let up := ops.shl (ops.bitAnd x mask) amount
  ops.bitOr down up

def emitBitreverse64 (x : Value u64Ty) (width : Nat) : Value u64Ty :=
  let groups := [(0x5555555555555555, 1), (0x3333333333333333, 2), (0x0f0f0f0f0f0f0f0f, 4)]
  let swapped := emitBswap64 ops (groups.foldl (swapGroups ops) x) 64
  if width < 64 then ops.shr swapped (ops.constant u64Ty (64 - width)) else swapped

/-! ## Rotations -/

/-- The shifts of a rotation of a `width`-bit field by `shift`, at a type that
    holds the field. -/
def emitRotate {ty : IntegerType} (isLeft : Bool) (width : Nat) (x shift : Value ty) : Value ty :=
  let modulusMask := ops.constant ty (width - 1)
  let k := ops.bitAnd shift modulusMask
  let complement := ops.sub (ops.constant ty width) k
  let inv := ops.bitAnd complement modulusMask
  let left := ops.shl x (if isLeft then k else inv)
  let right := ops.shr x (if isLeft then inv else k)
  ops.bitOr left right

/-- A rotation of a value of at most 64 bits, in 64 bits. -/
def emitRotate64 (isLeft : Bool) (width : Nat) (x shift : Value u64Ty) : Value u64Ty :=
  let mask := ops.constant u64Ty ((2 ^ 64 - 1) >>> (64 - width))
  let x := if width < 64 then ops.bitAnd x mask else x
  let rotated := emitRotate ops isLeft width x shift
  if width < 64 then ops.bitAnd rotated mask else rotated

/-! ## The intrinsics -/

/-- The operand and the amount are the call's arguments, `dest` the type of its
    destination. -/
def lowerCtpop {ty : IntegerType} (input : Value ty) (dest : IntegerType) :
    Except String (Value dest) :=
  if ty.width = 128 then
    let halves := splitU128Halves ops input
    let total := ops.add (emitPopcount64 ops halves.1) (emitPopcount64 ops halves.2)
    .ok (castValueToType ops total dest)
  else do
    let x ← widenToU64 ops input
    return castValueToType ops (emitPopcount64 ops x) dest

def lowerCttz {ty : IntegerType} (input : Value ty) (dest : IntegerType) :
    Except String (Value dest) :=
  if ty.width = 128 then .ok (castValueToType ops (emitCttz128 ops input) dest)
  else if ty.width > 64 then
    .error ("unsupported " ++ toString ty.width ++ "-bit cttz intrinsic")
  else do
    let x ← widenToU64 ops input
    return castValueToType ops (emitCttz64 ops x ty.width) dest

def lowerCtlz {ty : IntegerType} (input : Value ty) (dest : IntegerType) :
    Except String (Value dest) :=
  if ty.width = 128 then .ok (castValueToType ops (emitCtlz128 ops input) dest)
  else if ty.width > 64 then
    .error ("unsupported " ++ toString ty.width ++ "-bit ctlz intrinsic")
  else do
    let x ← widenToU64 ops input
    return castValueToType ops (emitCtlz64 ops x ty.width) dest

def lowerBswap {ty : IntegerType} (input : Value ty) (dest : IntegerType) :
    Except String (Value dest) :=
  if ty.width = 128 then
    let halves := splitU128Halves ops input
    let loSwapped := emitBswap64 ops halves.1 64
    let hiSwapped := emitBswap64 ops halves.2 64
    .ok (castValueToType ops (joinU128Halves ops hiSwapped loSwapped) dest)
  else if ty.width > 64 ∨ ty.width % 8 ≠ 0 then
    .error ("unsupported " ++ toString ty.width ++ "-bit bswap intrinsic")
  else if ty.width = 8 then do
    let x ← widenToU64 ops input
    return castValueToType ops x dest
  else do
    let x ← widenToU64 ops input
    return castValueToType ops (emitBswap64 ops x ty.width) dest

def lowerBitreverse {ty : IntegerType} (input : Value ty) (dest : IntegerType) :
    Except String (Value dest) :=
  if ty.width = 128 then
    let halves := splitU128Halves ops input
    let loReversed := emitBitreverse64 ops halves.1 64
    let hiReversed := emitBitreverse64 ops halves.2 64
    .ok (castValueToType ops (joinU128Halves ops hiReversed loReversed) dest)
  else if ty.width > 64 then
    .error ("unsupported " ++ toString ty.width ++ "-bit bitreverse intrinsic")
  else do
    let x ← widenToU64 ops input
    return castValueToType ops (emitBitreverse64 ops x ty.width) dest

def lowerRotate (isLeft : Bool) {ty shiftTy : IntegerType} (input : Value ty)
    (shift : Value shiftTy) (dest : IntegerType) : Except String (Value dest) :=
  if ty.width = 128 then
    let x := castValueToType ops input u128Ty
    let shift := castValueToType ops shift u128Ty
    .ok (castValueToType ops (emitRotate ops isLeft 128 x shift) dest)
  else if ty.width > 64 ∨ isPowerOfTwo ty.width = false then
    .error ("unsupported " ++ toString ty.width ++ "-bit rotate intrinsic")
  else do
    let x ← widenToU64 ops input
    let shift ← widenToU64 ops shift
    return castValueToType ops (emitRotate64 ops isLeft ty.width x shift) dest

/-- The arms of `lower_known_intrinsic_call` for the bit intrinsics, with the
    arguments imported. -/
def lowerBitIntrinsic (name : BitIntrinsic) {ty : IntegerType} (input : Value ty)
    (shift : Value u32Ty) (dest : IntegerType) : Except String (Value dest) :=
  match name with
  | .ctpop => lowerCtpop ops input dest
  | .cttz => lowerCttz ops input dest
  | .ctlz => lowerCtlz ops input dest
  | .bswap => lowerBswap ops input dest
  | .bitreverse => lowerBitreverse ops input dest
  | .rotateLeft => lowerRotate ops true input shift dest
  | .rotateRight => lowerRotate ops false input shift dest

end Emission

end Crabbit.Mir
