/-
  Crabbit.Aarch64.FoldBinary

  Instruction selection's own folder of binary operations on immediates
  (`fold_binary` of `passes/aarch64/llvm_to_aarch64_isel.rs`), against the one
  of the middle end.

  Below 128 bits it computes in `u64`: the operands are masked to the width,
  sign extended where the operation is signed, and the result is masked again.
  It does not look at the width to shift: the amount is taken modulo 64.
-/

import Crabbit.Llvm.ConstantFold
import Mathlib.Data.Nat.Bitwise

namespace Crabbit.Aarch64

open Crabbit.Lib
open Crabbit.Llvm (IntBinOp ConstOperand Fold Ty asConstOperand evalBin foldBits foldBits_eval
  foldIntBinary maskToWidth)

/-! ## The folder -/

/-- `integer_width_and_signedness(..).map(min 128).unwrap_or(64)`. -/
def foldWidth : Ty → Nat
  | .int width _ => min width 128
  | _ => 64

/-- The `u64` with the low `width` bits set. -/
def widthMask (width : Nat) : Nat := if width = 64 then 2 ^ 64 - 1 else 2 ^ (width % 64) - 1

/-- `sign_extend_immediate`. -/
def signExtendImmediate (value width : Nat) : Nat :=
  if 64 ≤ width then value
  else if (value &&& (2 ^ width - 1)) &&& 2 ^ (width - 1) = 0 then value &&& (2 ^ width - 1)
  else (value &&& (2 ^ width - 1)) ||| (2 ^ 64 - 1 - (2 ^ width - 1))

/-- `sign_extend_immediate(..) as i64`. -/
def signedImmediate (value width : Nat) : Int := toSigned 64 (signExtendImmediate value width)

/-- A word of `n` bits, with the wrapping operations of Rust: amounts of shifts
    are taken modulo the word, division truncates. -/
def wrappingOp (n : Nat) (op : IntBinOp) (lhs rhs : Nat) (slhs srhs : Int) : Option Nat :=
  match op with
  | .add => some (wrap n (lhs + rhs))
  | .sub => some (wrap n (lhs - rhs))
  | .mul => some (wrap n (lhs * rhs))
  | .sdiv => if srhs = 0 then none else some (wrap n (slhs.tdiv srhs))
  | .udiv => if rhs = 0 then none else some (lhs / rhs)
  | .srem => if srhs = 0 then none else some (wrap n (slhs.tmod srhs))
  | .urem => if rhs = 0 then none else some (lhs % rhs)
  | .and => some (lhs &&& rhs)
  | .or => some (lhs ||| rhs)
  | .xor => some (lhs ^^^ rhs)
  | .shl => some (wrap n (lhs * 2 ^ (rhs % 2 ^ 32 % n)))
  | .lshr => some (lhs / 2 ^ (rhs % 2 ^ 32 % n))
  | .ashr => some (wrap n (slhs / 2 ^ (rhs % 2 ^ 32 % n)))

/-- `fold_binary` at a width below 128, of operands masked to it. -/
def foldMasked (op : IntBinOp) (lhs rhs width : Nat) : Option Nat :=
  (wrappingOp 64 op lhs rhs (signedImmediate lhs width) (signedImmediate rhs width)).map
    (· &&& widthMask width)

/-- `fold_binary`; none where it refuses, and where it panics. -/
def foldBinary (op : IntBinOp) (lhs rhs : Nat) (resultTy : Ty) : Option Nat :=
  if foldWidth resultTy = 128 then
    wrappingOp 128 op lhs rhs (toSigned 128 lhs) (toSigned 128 rhs)
  else foldMasked op (lhs % 2 ^ 64 &&& widthMask (foldWidth resultTy))
    (rhs % 2 ^ 64 &&& widthMask (foldWidth resultTy)) (foldWidth resultTy)

/-! ## Words of up to 64 bits -/

theorem and_widthMask {width : Nat} (h0 : 0 < width) (h : width ≤ 64) (x : Nat) :
    x &&& widthMask width = x % 2 ^ width := by
  rw [widthMask]
  split
  case isTrue heq => rw [heq, Nat.and_two_pow_sub_one_eq_mod]
  case isFalse hne => rw [Nat.mod_eq_of_lt (by omega), Nat.and_two_pow_sub_one_eq_mod]

/-- Above its width an immediate is filled with ones: the bits do not meet. -/
theorem or_highMask {value width : Nat} (h : width ≤ 64) (hvalue : value < 2 ^ width) :
    value ||| (2 ^ 64 - 1 - (2 ^ width - 1)) = value + (2 ^ 64 - 2 ^ width) := by
  have hpos := Nat.two_pow_pos width
  have hscaled : (2 ^ (64 - width) - 1) * 2 ^ width = 2 ^ 64 - 2 ^ width := by
    rw [Nat.sub_mul, ← Nat.pow_add, Nat.sub_add_cancel h, Nat.one_mul]
  have hhigh : 2 ^ 64 - 1 - (2 ^ width - 1) = (2 ^ (64 - width) - 1) * 2 ^ width := by
    omega
  rw [hhigh, Nat.or_comm, Nat.mul_comm, ← Nat.two_pow_add_eq_or_of_lt hvalue, Nat.mul_comm,
    hscaled, Nat.add_comm]

/-- An immediate is read as the signed number of its low bits. -/
theorem signedImmediate_eq {value width : Nat} (h0 : 0 < width) (h : width ≤ 64)
    (hvalue : value < 2 ^ width) : signedImmediate value width = toSigned width value := by
  rw [signedImmediate, signExtendImmediate]
  by_cases h64 : 64 ≤ width
  · rw [if_pos h64, Nat.le_antisymm h h64]
  · have hlow : value &&& (2 ^ width - 1) = value := by
      rw [Nat.and_two_pow_sub_one_eq_mod, Nat.mod_eq_of_lt hvalue]
    have hhalf := two_pow_eq_two_mul h0
    have hpow : 2 ^ width ≤ 2 ^ 63 := Nat.pow_le_pow_right (by decide) (by omega)
    rw [if_neg h64, hlow, Nat.and_two_pow]
    rcases Nat.lt_or_ge value (2 ^ (width - 1)) with hlo | hhi
    · have hbit : value.testBit (width - 1) = false := Nat.testBit_lt_two_pow hlo
      rw [hbit, Bool.toNat_false, Nat.zero_mul, if_pos rfl, toSigned_of_lt_half h0 hlo,
        toSigned_of_lt_half (by decide) (by omega)]
    · have hbit : value.testBit (width - 1) = true := by
        rw [Nat.testBit_eq_decide_div_mod_eq, decide_eq_true_eq,
          Nat.div_eq_of_lt_le (k := 1) (by omega) (by omega)]
      have hpos := Nat.two_pow_pos (width - 1)
      rw [hbit, Bool.toNat_true, Nat.one_mul, if_neg (Nat.ne_of_gt hpos), or_highMask h hvalue,
        toSigned_of_half_le h0 hhi hvalue, toSigned_of_half_le (by decide) (by omega) (by omega)]
      rw [← natCast_two_pow width, ← natCast_two_pow 64]
      omega

/-! ## What the folder computes -/

def isShift : IntBinOp → Bool
  | .shl | .lshr | .ashr => true
  | _ => false

def isDivision : IntBinOp → Bool
  | .udiv | .urem | .sdiv | .srem => true
  | _ => false

/-- Where `fold_binary` panics: at 128 bits it divides before it looks whether
    the divisor is zero. -/
def foldBinaryPanics (op : IntBinOp) (rhs : Nat) (resultTy : Ty) : Bool :=
  foldWidth resultTy == 128 && isDivision op && rhs == 0

/-- The signed reading is zero only for zero. -/
theorem toSigned_eq_zero {width x : Nat} (h0 : 0 < width) (hx : x < 2 ^ width) :
    toSigned width x = 0 ↔ x = 0 := by
  constructor
  · intro h
    have hwrap := wrap_toSigned hx
    rw [h, wrap, Int.zero_emod, Int.toNat_zero] at hwrap
    exact hwrap.symm
  · rintro rfl
    exact toSigned_of_lt_half h0 (Nat.two_pow_pos _)

section Masked

variable {width x y : Nat} (h0 : 0 < width) (h : width ≤ 64) (hx : x < 2 ^ width)
  (hy : y < 2 ^ width)

include h0 h hx hy

/-- Off the shifts by the width or more, the folder evaluates the operation: in
    particular it refuses where that has no result. -/
theorem foldMasked_eval {op : IntBinOp} (hop : isShift op = true → y < width) :
    foldMasked op x y width = evalBin op width x y := by
  have hwrap : ∀ z : Int, wrap 64 z &&& widthMask width = wrap width z := fun z => by
    rw [and_widthMask h0 h, wrap_mod_two_pow h]
  have hsmall : ∀ {b : Nat}, b < 2 ^ width → b &&& widthMask width = b := fun hb => by
    rw [and_widthMask h0 h, Nat.mod_eq_of_lt hb]
  have hamount : y < width → y % 2 ^ 32 % 64 = y := fun hlt => by
    rw [Nat.mod_eq_of_lt (by omega : y < 2 ^ 32), Nat.mod_eq_of_lt (by omega)]
  have hzero := toSigned_eq_zero h0 hy
  rw [foldMasked, signedImmediate_eq h0 h hx, signedImmediate_eq h0 h hy]
  cases op with
  | add | sub | mul => exact congrArg some (hwrap _)
  | and => exact congrArg some (hsmall (Nat.lt_of_le_of_lt Nat.and_le_left hx))
  | or => exact congrArg some (hsmall (Nat.or_lt_two_pow hx hy))
  | xor => exact congrArg some (hsmall (Nat.xor_lt_two_pow hx hy))
  | shl =>
    have hlt := hop rfl
    rw [wrappingOp, evalBin, if_pos hlt, hamount hlt, Option.map_some, hwrap]
  | lshr =>
    have hlt := hop rfl
    rw [wrappingOp, evalBin, if_pos hlt, hamount hlt, Option.map_some,
      hsmall (Nat.lt_of_le_of_lt (Nat.div_le_self _ _) hx)]
  | ashr =>
    have hlt := hop rfl
    rw [wrappingOp, evalBin, if_pos hlt, hamount hlt, Option.map_some, hwrap]
  | udiv =>
    rw [wrappingOp, evalBin]
    split
    · rfl
    · rw [Option.map_some, hsmall (Nat.lt_of_le_of_lt (Nat.div_le_self _ _) hx)]
  | urem =>
    rw [wrappingOp, evalBin]
    split
    · rfl
    · rw [Option.map_some, hsmall (Nat.lt_of_le_of_lt (Nat.mod_le _ _) hx)]
  | sdiv =>
    simp only [wrappingOp, evalBin, hzero]
    split
    · rfl
    · rw [Option.map_some, hwrap]
  | srem =>
    simp only [wrappingOp, evalBin, hzero]
    split
    · rfl
    · rw [Option.map_some, hwrap]

omit hx hy in
/-- A folded value fits the width. -/
theorem foldMasked_lt {op : IntBinOp} {b : Nat} (hfold : foldMasked op x y width = some b) :
    b < 2 ^ width := by
  obtain ⟨a, -, rfl⟩ := Option.map_eq_some_iff.mp hfold
  rw [and_widthMask h0 h]
  exact Nat.mod_lt _ (Nat.two_pow_pos _)

/-- The folder refuses divisions by zero and nothing else. -/
theorem foldMasked_eq_none_iff (op : IntBinOp) :
    foldMasked op x y width = none ↔ isDivision op = true ∧ y = 0 := by
  have hzero := toSigned_eq_zero h0 hy
  rw [foldMasked, signedImmediate_eq h0 h hx, signedImmediate_eq h0 h hy, Option.map_eq_none_iff]
  cases op with
  | udiv | urem | sdiv | srem => simp [wrappingOp, isDivision, hzero]
  | _ => simp [wrappingOp, isDivision]

end Masked

/-- Up to 64 bits the operands are those of the width. -/
theorem foldBinary_eq {op : IntBinOp} {lhs rhs width : Nat} {sign : Crabbit.Llvm.Signedness}
    (h0 : 0 < width) (h : width ≤ 64) :
    foldBinary op lhs rhs (.int width sign) =
      foldMasked op (lhs % 2 ^ width) (rhs % 2 ^ width) width := by
  have hwidth : foldWidth (.int width sign) = width := Nat.min_eq_left (by omega)
  have hmask : ∀ x : Nat, x % 2 ^ 64 &&& widthMask width = x % 2 ^ width := fun x => by
    rw [and_widthMask h0 h, Nat.mod_mod_of_dvd _ (Nat.pow_dvd_pow 2 h)]
  rw [foldBinary, hwidth, if_neg (by omega), hmask, hmask]

/-- At 128 bits the folder refuses nothing: it has a result, or panics. -/
theorem foldBinary_eq_none_iff_panics {op : IntBinOp} {lhs rhs : Nat} {ty : Ty}
    (hwidth : foldWidth ty = 128) (hrhs : rhs < 2 ^ 128) :
    foldBinary op lhs rhs ty = none ↔ foldBinaryPanics op rhs ty = true := by
  have hzero := toSigned_eq_zero (by decide) hrhs
  rw [foldBinary, if_pos hwidth, foldBinaryPanics, hwidth]
  cases op with
  | udiv | urem | sdiv | srem => simp [wrappingOp, isDivision, hzero]
  | _ => simp [wrappingOp, isDivision]

/-! ## The two folders -/

/-- The folders of the middle end and of instruction selection agree where both
    fold, and the latter refuses only divisions by zero; a shift by the width or
    more, which the former leaves alone, it folds to some value of the width. -/
theorem foldBinary_agrees {defs : List Crabbit.Llvm.Operation} {lhs rhs : Crabbit.Llvm.Value}
    {l r : ConstOperand} {width : Nat} (op : IntBinOp) (sign : Crabbit.Llvm.Signedness)
    (hl : asConstOperand defs lhs = some l) (hr : asConstOperand defs rhs = some r)
    (vl : l.Valid width) (vr : r.Valid width) (h : width ≤ 64) :
    (∀ ty a b, foldIntBinary defs op lhs rhs = some (.constant ty a) →
      foldBinary op l.bits r.bits (.int width sign) = some b → maskToWidth a width = b) ∧
    (foldBinary op l.bits r.bits (.int width sign) = none ↔
      isDivision op = true ∧ r.masked = 0) ∧
    (∀ b, foldBinary op l.bits r.bits (.int width sign) = some b →
      b < 2 ^ width ∧ (evalBin op width l.masked r.masked = some b ∨
        isShift op = true ∧ width ≤ r.masked)) := by
  have heval := foldBits_eval vl vr op
  have heq : (isShift op = true → r.masked < width) →
      foldMasked op l.masked r.masked width = evalBin op width l.masked r.masked :=
    foldMasked_eval vl.pos h vl.masked_lt vr.masked_lt
  have hout : ¬(isShift op = true → r.masked < width) → isShift op = true ∧ width ≤ r.masked :=
    fun hshift => by simpa using hshift
  rw [foldBinary_eq vl.pos h, ← vl.masked_eq, ← vr.masked_eq]
  refine ⟨fun ty a b hmid hisel => ?_, foldMasked_eq_none_iff vl.pos h vl.masked_lt vr.masked_lt op,
    fun b hisel => ⟨foldMasked_lt vl.pos h hisel, ?_⟩⟩
  · simp only [foldIntBinary, hl, hr, Option.map_eq_some_iff, Fold.constant.injEq] at hmid
    obtain ⟨a', hbits, -, rfl⟩ := hmid
    rw [hbits, Option.map_some] at heval
    by_cases hshift : isShift op = true → r.masked < width
    · rw [heq hshift, ← heval, Option.some.injEq] at hisel
      exact hisel
    · -- The middle end has folded no such shift.
      obtain ⟨hop, hle⟩ := hout hshift
      have hnone : evalBin op width l.masked r.masked = none := by
        cases op <;> simp_all [isShift, evalBin]
      rw [hnone] at heval
      exact absurd heval (Option.some_ne_none _)
  · by_cases hshift : isShift op = true → r.masked < width
    · exact Or.inl ((heq hshift).symm.trans hisel)
    · exact Or.inr (hout hshift)

/-- The definitions of `-128` and `-1` as `i8` constants. -/
def minAndMinusOne : List Crabbit.Llvm.Operation :=
  [⟨.constant 128, ⟨0, .int 8 .signless⟩⟩, ⟨.constant 255, ⟨1, .int 8 .signless⟩⟩]

theorem foldBinary_agrees_min_div_minus_one :
    (∀ ty a b, foldIntBinary minAndMinusOne .sdiv ⟨0, .int 8 .signless⟩ ⟨1, .int 8 .signless⟩ =
        some (.constant ty a) →
      foldBinary .sdiv 128 255 (.int 8 .signless) = some b → maskToWidth a 8 = b) ∧
    foldBinary .sdiv 128 255 (.int 8 .signless) = some 128 :=
  ⟨(foldBinary_agrees .sdiv .signless (by decide) (by decide)
      (l := ⟨128, 8, ⟨8, .signless⟩⟩) (r := ⟨255, 8, ⟨8, .signless⟩⟩)
      ⟨rfl, rfl, by decide, by decide, by decide⟩ ⟨rfl, rfl, by decide, by decide, by decide⟩
      (by decide)).1, by decide⟩

end Crabbit.Aarch64
