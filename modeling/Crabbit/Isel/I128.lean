/-
  Crabbit.Isel.I128

  128-bit integers in pairs of words: the sequences that both back ends emit for
  an operation on pairs (`passes/aarch64/isel_i128.rs` and
  `passes/x86_64_darwin/isel_i128.rs`), and what they compute.
-/

import Crabbit.Isel.LoweredValue
import Crabbit.Lib.WideWords

namespace Crabbit.Isel

open Crabbit.Lib
open Crabbit.Llvm (ICmpPredicate IntBinOp Ty evalBin evalICmp)

variable {T : Target}

/-! ## Sequences -/

/-- A pair of registers, the low half first. -/
abbrev Pair (T : Target) := T.Register × T.Register

/-- The end of the sign extension of a register: its top bit times minus one, in
    a register that is there already. -/
def signMultiply (lo hi sign : T.Register) : Select T T.Register := do
  emit (T.binary .lsr hi lo sign)
  let mask ← freshVreg
  emitAll (T.materializeU64Immediate mask (2 ^ 64 - 1))
  emit (T.binary .mul hi hi mask)
  pure hi

/-- `lower_binary_128` of an addition. -/
def lowerAdd128 (lhs rhs : Pair T) : Select T (Pair T) := do
  let lo ← emitBinary .add lhs.1 rhs.1
  let carry ← Lowering.emitCompareBit lo lhs.1 .ult
  let hiSum ← emitBinary .add lhs.2 rhs.2
  let hi ← emitBinary .add hiSum carry
  pure (lo, hi)

/-- `lower_binary_128` of a subtraction. -/
def lowerSub128 (lhs rhs : Pair T) : Select T (Pair T) := do
  let borrow ← Lowering.emitCompareBit lhs.1 rhs.1 .ult
  let lo ← emitBinary .sub lhs.1 rhs.1
  let hiSub ← emitBinary .sub lhs.2 rhs.2
  let hi ← emitBinary .sub hiSub borrow
  pure (lo, hi)

/-- `lower_binary_128` of a multiplication. -/
def lowerMul128 (lhs rhs : Pair T) : Select T (Pair T) := do
  let lo ← emitBinary .mul lhs.1 rhs.1
  let highLow ← emitBinary .umulh lhs.1 rhs.1
  let crossA ← emitBinary .mul lhs.2 rhs.1
  let crossB ← emitBinary .mul lhs.1 rhs.2
  let hiPartial ← emitBinary .add highLow crossA
  let hi ← emitBinary .add hiPartial crossB
  pure (lo, hi)

/-- `lower_binary_128` of an operation on the bits. -/
def lowerLogic128 (op : WordOp) (lhs rhs : Pair T) : Select T (Pair T) := do
  let lo ← emitBinary op lhs.1 rhs.1
  let hi ← emitBinary op lhs.2 rhs.2
  pure (lo, hi)

/-- The operation on words behind a shift to the right. -/
abbrev hiShift (signed : Bool) : WordOp := if signed then .asr else .lsr

/-- The low half after a shift to the right by a word or more. -/
def shiftRightBeyond (hi : T.Register) (shift : Nat) (signed : Bool) : Select T T.Register :=
  if shift = 64 then pure hi
  else do
    let shiftReg ← emitConstant (shift - 64)
    emitBinary (hiShift signed) hi shiftReg

/-- The high half after such a shift: the sign, or zero. -/
def signHalf (hi : T.Register) (signed : Bool) : Select T T.Register :=
  if signed then do
    let sixtyThree ← emitConstant 63
    emitBinary .asr hi sixtyThree
  else emitConstant 0

/-- `lower_shift_right_128`. -/
def lowerShiftRight128 (pair : Pair T) (shift : Nat) (signed : Bool) : Select T (Pair T) :=
  if shift = 0 then pure pair
  else if shift < 64 then do
    let shiftReg ← emitConstant shift
    let loPart ← emitBinary .lsr pair.1 shiftReg
    let invShift ← emitConstant (64 - shift)
    let hiPart ← emitBinary .shl pair.2 invShift
    let newLo ← emitBinary .or loPart hiPart
    -- The register of the result comes before the one of the amount.
    let newHi ← freshVreg
    let shiftReg ← emitConstant shift
    emit (T.binary (hiShift signed) newHi pair.2 shiftReg)
    pure (newLo, newHi)
  else do
    let newLo ← shiftRightBeyond pair.2 shift signed
    let newHi ← signHalf pair.2 signed
    pure (newLo, newHi)

/-- The high half after a shift to the left by a word or more. -/
def shiftLeftBeyond (lo : T.Register) (shift : Nat) : Select T T.Register :=
  if shift = 64 then pure lo
  else do
    let shifted ← freshVreg
    let shiftReg ← emitConstant (shift - 64)
    emit (T.binary .shl shifted lo shiftReg)
    pure shifted

/-- `lower_shift_left_128`. -/
def lowerShiftLeft128 (pair : Pair T) (shift : Nat) : Select T (Pair T) :=
  if shift = 0 then pure pair
  else if shift < 64 then do
    let shiftReg ← emitConstant shift
    let newLo ← emitBinary .shl pair.1 shiftReg
    let invShift ← emitConstant (64 - shift)
    let carry ← emitBinary .lsr pair.1 invShift
    let hiPart ← freshVreg
    let shiftReg ← emitConstant shift
    emit (T.binary .shl hiPart pair.2 shiftReg)
    let newHi ← emitBinary .or hiPart carry
    pure (newLo, newHi)
  else do
    let newLo ← emitConstant 0
    let newHi ← shiftLeftBeyond pair.1 shift
    pure (newLo, newHi)

/-- `DynamicShift`. -/
inductive DynamicShift where
  | shl | lshr | ashr
  deriving DecidableEq

/-- The choice between two cases by complementary masks. -/
def emitSelect (maskLo maskHi lowCase highCase : T.Register) : Select T T.Register := do
  let low ← emitBinary .and lowCase maskLo
  let high ← emitBinary .and highCase maskHi
  emitBinary .or low high

/-- The masks of `lower_dynamic_shift_128`: the shift of the carry between the
    halves, all ones for an amount below 64, and its complement. -/
def emitMasks (amount : T.Register) : Select T (T.Register × T.Register × T.Register) := do
  let c63 ← emitConstant 63
  let n63 ← emitBinary .and amount c63
  let inv ← emitBinary .sub c63 n63
  let c64 ← emitConstant 64
  emit (T.cmp amount c64)
  let lt64 ← freshVreg
  emit (T.cset lt64 .ult)
  let ge64 ← freshVreg
  emit (T.cset ge64 .uge)
  let zero ← emitConstant 0
  let maskLo ← emitBinary .sub zero lt64
  let maskHi ← emitBinary .sub zero ge64
  pure (inv, maskLo, maskHi)

/-- `lower_dynamic_shift_128` to the left. -/
def dynamicShiftLeft (pair : Pair T) (amount inv maskLo maskHi : T.Register) :
    Select T (Pair T) := do
  let shlLo ← emitBinary .shl pair.1 amount
  let shlHi ← emitBinary .shl pair.2 amount
  let one ← emitConstant 1
  let loHalf ← emitBinary .lsr pair.1 one
  let carry ← emitBinary .lsr loHalf inv
  let hiLowCase ← emitBinary .or shlHi carry
  let newLo ← emitBinary .and shlLo maskLo
  let newHi ← emitSelect maskLo maskHi hiLowCase shlLo
  pure (newLo, newHi)

/-- The high half after a dynamic shift to the right. -/
def dynamicHigh (hi hiShifted maskLo maskHi : T.Register) (signed : Bool) :
    Select T T.Register :=
  if signed then do
    let sixtyThree ← emitConstant 63
    let sign ← emitBinary .asr hi sixtyThree
    emitSelect maskLo maskHi hiShifted sign
  else emitBinary .and hiShifted maskLo

/-- `lower_dynamic_shift_128` to the right. -/
def dynamicShiftRight (pair : Pair T) (amount inv maskLo maskHi : T.Register) (signed : Bool) :
    Select T (Pair T) := do
  let hiShifted ← emitBinary (hiShift signed) pair.2 amount
  let lsrLo ← emitBinary .lsr pair.1 amount
  let one ← emitConstant 1
  let hiDouble ← emitBinary .shl pair.2 one
  let carry ← emitBinary .shl hiDouble inv
  let loLowCase ← emitBinary .or lsrLo carry
  let newLo ← emitSelect maskLo maskHi loLowCase hiShifted
  let newHi ← dynamicHigh pair.2 hiShifted maskLo maskHi signed
  pure (newLo, newHi)

/-- `lower_dynamic_shift_128`. -/
def lowerDynamicShift128 (kind : DynamicShift) (pair : Pair T) (amount : T.Register) :
    Select T (Pair T) := do
  let masks ← emitMasks amount
  match kind with
  | .shl => dynamicShiftLeft pair amount masks.1 masks.2.1 masks.2.2
  | .lshr => dynamicShiftRight pair amount masks.1 masks.2.1 masks.2.2 false
  | .ashr => dynamicShiftRight pair amount masks.1 masks.2.1 masks.2.2 true

/-! ## Operations -/

/-- The constant amount of a shift; more than 127 counts as 127. -/
def constantAmount {R : Type} : LoweredValue R → Option Nat
  | .imm imm => some (min imm 127)
  | _ => none

/-- An operation as errors name it. -/
def kindName : IntBinOp → String
  | .add => "Add" | .sub => "Sub" | .mul => "Mul" | .sdiv => "SDiv" | .udiv => "UDiv"
  | .srem => "SRem" | .urem => "URem" | .and => "And" | .or => "Or" | .xor => "Xor"
  | .shl => "Shl" | .lshr => "Shr" | .ashr => "AShr"

/-- The operation a back end without shifts by a register does not support; it
    has no arithmetic shift. -/
def DynamicShift.unsupported : DynamicShift → String
  | .shl => "dynamic i128 shift left"
  | .lshr | .ashr => "dynamic i128 logical shift right"

/-- `fold_binary` of two immediates.  The divisions it panics on are not lowered
    here either. -/
def foldImmediates {R : Type} (fold : IntBinOp → Nat → Nat → Ty → Option Nat) (kind : IntBinOp)
    (lhs rhs : LoweredValue R) (ty : Ty) : Option Nat :=
  match lhs, rhs with
  | .imm lhs, .imm rhs => fold kind lhs rhs ty
  | _, _ => none

namespace Lowering

variable (L : Lowering T)

/-- A shift of `lower_binary_128`; `dynamic` is the shift by a register of a back
    end that has one. -/
def lowerShift128 (dynamic : Option (DynamicShift → Pair T → T.Register → Select T (Pair T)))
    (kind : DynamicShift) (lhs : Pair T) (rhs : LoweredValue T.Register) : Select T (Pair T) :=
  match constantAmount rhs with
  | some shift =>
    match kind with
    | .shl => lowerShiftLeft128 lhs shift
    | .lshr => lowerShiftRight128 lhs shift false
    | .ashr => lowerShiftRight128 lhs shift true
  | none =>
    match dynamic with
    | none => throw kind.unsupported
    | some lower => do
      let amount ← L.materialize rhs
      lower kind lhs amount

/-- The operation of `lower_binary_128` once the left operand is in a pair. -/
def lowerPair128 (dynamic : Option (DynamicShift → Pair T → T.Register → Select T (Pair T)))
    (kind : IntBinOp) (lhs : Pair T) (rhs : LoweredValue T.Register) (resultTy : Ty) :
    Select T (Pair T) :=
  match kind with
  | .add => do
    let rhs ← L.materializePair rhs resultTy
    lowerAdd128 lhs rhs
  | .sub => do
    let rhs ← L.materializePair rhs resultTy
    lowerSub128 lhs rhs
  | .mul => do
    let rhs ← L.materializePair rhs resultTy
    lowerMul128 lhs rhs
  | .and => do
    let rhs ← L.materializePair rhs resultTy
    lowerLogic128 .and lhs rhs
  | .or => do
    let rhs ← L.materializePair rhs resultTy
    lowerLogic128 .or lhs rhs
  | .xor => do
    let rhs ← L.materializePair rhs resultTy
    lowerLogic128 .xor lhs rhs
  | .shl => L.lowerShift128 dynamic .shl lhs rhs
  | .lshr => L.lowerShift128 dynamic .lshr lhs rhs
  | .ashr => L.lowerShift128 dynamic .ashr lhs rhs
  | .sdiv | .udiv | .srem | .urem => throw ("128-bit " ++ kindName kind ++ L.divisionHint)

/-- `lower_binary_128`; `fold` is `fold_binary`. -/
def lowerBinary128 (fold : IntBinOp → Nat → Nat → Ty → Option Nat)
    (dynamic : Option (DynamicShift → Pair T → T.Register → Select T (Pair T))) (kind : IntBinOp)
    (lhs rhs : LoweredValue T.Register) (resultTy : Ty) : Select T (LoweredValue T.Register) :=
  match foldImmediates fold kind lhs rhs resultTy with
  | some imm => pure (.imm imm)
  | none => do
    let lhs ← L.materializePair lhs resultTy
    let result ← L.lowerPair128 dynamic kind lhs rhs resultTy
    pure (.regPair result.1 result.2)

end Lowering

end Crabbit.Isel
