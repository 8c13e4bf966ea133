/-
  Crabbit.Llvm.DivStrengthReduce

  Strength reduction of `sdiv`/`udiv`/`srem`/`urem` by constants: powers of
  two become shifts, other constants a multiplication by a magic number, and
  remainders `a - (a / c) * c`.
-/

import Crabbit.Llvm.Emit
import Crabbit.Lib.DoWhile

namespace Crabbit.Llvm

open Crabbit.Lib (doWhile)

inductive DivKind where
  | sdiv | udiv | srem | urem
  deriving DecidableEq

namespace DivKind

def signed (kind : DivKind) : Bool := kind = .sdiv ∨ kind = .srem

def rem (kind : DivKind) : Bool := kind = .srem ∨ kind = .urem

/-- The operation the kind is read from. -/
def binOp : DivKind → IntBinOp
  | .sdiv => .sdiv
  | .udiv => .udiv
  | .srem => .srem
  | .urem => .urem

end DivKind

/-- The kind of a division, with its dividend and divisor. -/
def divKind : ScalarOp → Option (DivKind × Value × Value)
  | .bin .sdiv a d => some (.sdiv, a, d)
  | .bin .udiv a d => some (.udiv, a, d)
  | .bin .srem a d => some (.srem, a, d)
  | .bin .urem a d => some (.urem, a, d)
  | _ => none

/-- `d.is_power_of_two()` -/
def isPowerOfTwo (d : Nat) : Bool := d = 2 ^ d.log2

/-! ## Magic numbers -/

/-- The variables of the magic-number loops.  `q₁ r₁` divide `2 ^ p` by the
    dividend bound, `q₂ r₂` divide it by the divisor. -/
structure MagicState where
  p : Nat
  q₁ : Nat
  r₁ : Nat
  q₂ : Nat
  r₂ : Nat
  add : Bool
  deriving DecidableEq

structure UnsignedMagic where
  multiplier : Nat
  shift : Nat
  /-- The true magic is `multiplier + 2 ^ width`: use the add fixup. -/
  add : Bool
  deriving DecidableEq

/-- One pass through the loop of `magicUnsigned`. -/
def magicUnsignedStep (nc d width : Nat) (s : MagicState) : MagicState :=
  let two_w_m1 := 2 ^ (width - 1)
  let (q₁, r₁) :=
    if nc - s.r₁ ≤ s.r₁ then (2 * s.q₁ + 1, 2 * s.r₁ - nc) else (2 * s.q₁, 2 * s.r₁)
  let (add, q₂, r₂) :=
    if d - s.r₂ ≤ s.r₂ + 1 then
      (s.add || decide (two_w_m1 - 1 ≤ s.q₂), 2 * s.q₂ + 1, 2 * s.r₂ + 1 - d)
    else
      (s.add || decide (two_w_m1 ≤ s.q₂), 2 * s.q₂, 2 * s.r₂ + 1)
  ⟨s.p + 1, q₁, r₁, q₂, r₂, add⟩

def magicUnsignedAgain (d width : Nat) (s : MagicState) : Bool :=
  let delta := d - 1 - s.r₂
  s.p < 2 * width ∧ (s.q₁ < delta ∨ (s.q₁ = delta ∧ s.r₁ = 0))

/-- Hacker's Delight 10-9 `magicu`, for `2 ≤ d` not a power of two. -/
def magicUnsigned (d width : Nat) : UnsignedMagic :=
  let two_w_m1 := 2 ^ (width - 1)
  let msk := maskToWidth (2 ^ 128 - 1) width
  let nc := msk - (msk - d + 1) % d
  let q₁ := two_w_m1 / nc
  let q₂ := (two_w_m1 - 1) / d
  let s := doWhile (magicUnsignedStep nc d width) (magicUnsignedAgain d width) (2 * width)
    ⟨width - 1, q₁, two_w_m1 - q₁ * nc, q₂, (two_w_m1 - 1) - q₂ * d, false⟩
  ⟨(s.q₂ + 1) &&& msk, s.p - width, s.add⟩

structure SignedMagic where
  /-- Sign-extended magic multiplier. -/
  multiplier : Int
  shift : Nat
  deriving DecidableEq

/-- One pass through the loop of `magicSigned`. -/
def magicSignedStep (anc ad : Nat) (s : MagicState) : MagicState :=
  let (q₁, r₁) :=
    if anc ≤ 2 * s.r₁ then (2 * s.q₁ + 1, 2 * s.r₁ - anc) else (2 * s.q₁, 2 * s.r₁)
  let (q₂, r₂) :=
    if ad ≤ 2 * s.r₂ then (2 * s.q₂ + 1, 2 * s.r₂ - ad) else (2 * s.q₂, 2 * s.r₂)
  ⟨s.p + 1, q₁, r₁, q₂, r₂, s.add⟩

def magicSignedAgain (ad : Nat) (s : MagicState) : Bool :=
  let delta := ad - s.r₂
  s.q₁ < delta ∨ (s.q₁ = delta ∧ s.r₁ = 0)

/-- Hacker's Delight 10-4 `magic`, for `2 ≤ |d| < 2 ^ (width - 1)`.  The source
    loop has no bound of its own; it ends within `2 * width` rounds
    (`magicSigned_spec`). -/
def magicSigned (d : Int) (width : Nat) : SignedMagic :=
  let msk := maskToWidth (2 ^ 128 - 1) width
  let two_w_m1 := 2 ^ (width - 1)
  let ad := d.natAbs &&& msk
  let t := two_w_m1 + (Lib.wrap 128 d &&& msk) / 2 ^ (width - 1)
  let anc := t - 1 - t % ad
  let q₁ := two_w_m1 / anc
  let q₂ := two_w_m1 / ad
  let s := doWhile (magicSignedStep anc ad) (magicSignedAgain ad) (2 * width)
    ⟨width - 1, q₁, two_w_m1 - q₁ * anc, q₂, two_w_m1 - q₂ * ad, false⟩
  let m := (s.q₂ + 1) &&& msk
  let m := if d < 0 then Lib.wrap 128 ((msk : Int) - m + 1) &&& msk else m
  ⟨signExtend m width, s.p - width⟩

/-! ## Multiply-high -/

/-- The shift the half-word decomposition uses. -/
def emitShr (signed : Bool) (v k : Value) : Emit Value :=
  if signed then emitAShr v k else emitLShr v k

/-- The high `width` bits of `a * m`.  32 bits widen to 64; 64 bits go through
    half words, since not every back end has a 128-bit register class. -/
def emitMulh (width : Nat) (ty : IntegerType) (a : Value) (m_bits : Nat) (signed : Bool) :
    Emit Value :=
  if width = 32 then do
    let i64_ty := IntegerType.get 64
    let wide_a ← emitCast (if signed then .sext else .zext) a i64_ty
    let m_wide := if signed then maskToWidth (Lib.wrap 128 (signExtend m_bits 32)) 64 else m_bits
    let m_c ← emitConst i64_ty m_wide
    let prod ← emitMul wide_a m_c
    let s32 ← emitConst i64_ty 32
    let hi ← emitLShr prod s32
    emitCast .trunc hi ty
  else do
    let mask32 ← emitConst ty 0xFFFFFFFF
    let c32 ← emitConst ty 32
    let u₀ ← emitAnd a mask32
    let u₁ ← emitShr signed a c32
    let v0_bits := m_bits &&& 0xFFFFFFFF
    let v1_bits :=
      if signed then maskToWidth (Lib.wrap 128 (signExtend m_bits 64 / 2 ^ 32)) 64
      else maskToWidth m_bits 64 / 2 ^ 32
    let v₀ ← emitConst ty v0_bits
    let v₁ ← emitConst ty v1_bits
    let w₀ ← emitMul u₀ v₀
    let u₁v₀ ← emitMul u₁ v₀
    let w₀_hi ← emitLShr w₀ c32
    let t ← emitAdd u₁v₀ w₀_hi
    let w₁_lo ← emitAnd t mask32
    let w₂ ← emitShr signed t c32
    let u₀v₁ ← emitMul u₀ v₁
    let w₁ ← emitAdd u₀v₁ w₁_lo
    let w₁_hi ← emitShr signed w₁ c32
    let u₁v₁ ← emitMul u₁ v₁
    let part ← emitAdd u₁v₁ w₂
    emitAdd part w₁_hi

/-! ## The sequences -/

def expandUdiv (width : Nat) (ty : IntegerType) (a : Value) (d : Nat) : Emit Value :=
  if isPowerOfTwo d then do
    let k ← emitConst ty d.log2
    emitLShr a k
  else do
    let magic := magicUnsigned d width
    let t ← emitMulh width ty a magic.multiplier false
    if magic.add = false then
      if magic.shift = 0 then pure t
      else do
        let s ← emitConst ty magic.shift
        emitLShr t s
    else do
      -- The magic overflowed the word: q = (t + ((a - t) >> 1)) >> (s - 1).
      let diff ← emitSub a t
      let one ← emitConst ty 1
      let half ← emitLShr diff one
      let sum ← emitAdd half t
      let s ← emitConst ty (magic.shift - 1)
      emitLShr sum s

/-- The fixups for magics whose sign disagrees with the divisor. -/
def emitMagicFixup (d multiplier : Int) (q a : Value) : Emit Value :=
  if 0 < d ∧ multiplier < 0 then emitAdd q a
  else if d < 0 ∧ 0 < multiplier then emitSub q a
  else pure q

/-- The shift of a magic product, which is left out when it is zero. -/
def emitMagicShift (ty : IntegerType) (shift : Nat) (q : Value) : Emit Value :=
  if 0 < shift then do
    let s ← emitConst ty shift
    emitAShr q s
  else pure q

def expandSdiv (width : Nat) (ty : IntegerType) (a : Value) (d_bits : Nat) : Emit Value :=
  let d := signExtend d_bits width
  if d = -(2 ^ (width - 1)) then do
    -- Only MIN / MIN is 1; everything else quotients to 0.
    let min_c ← emitConst ty d_bits
    let cmp ← emitICmp .eq a min_c
    emitCast .zext cmp ty
  else
    let ad := d.natAbs
    if isPowerOfTwo ad then do
      -- Bias negative dividends by |d| - 1, so that the shift rounds to zero.
      let k := ad.log2
      let w_m1 ← emitConst ty (width - 1)
      let sgn ← emitAShr a w_m1
      let w_m_k ← emitConst ty (width - k)
      let srl ← emitLShr sgn w_m_k
      let biased ← emitAdd a srl
      let k_c ← emitConst ty k
      let q ← emitAShr biased k_c
      if d < 0 then do
        let zero ← emitConst ty 0
        emitSub zero q
      else pure q
    else do
      let magic := magicSigned d width
      let m_bits := maskToWidth (Lib.wrap 128 magic.multiplier) width
      let q ← emitMulh width ty a m_bits true
      let q ← emitMagicFixup d magic.multiplier q a
      let q ← emitMagicShift ty magic.shift q
      -- Add the sign bit to round the shifted quotient to zero.
      let w_m1 ← emitConst ty (width - 1)
      let sign ← emitLShr q w_m1
      emitAdd q sign

/-- `rem = a - q * d`, exact in wrapping arithmetic for a correct quotient. -/
def emitRemFromQuotient (ty : IntegerType) (a q : Value) (d_bits : Nat) : Emit Value := do
  let d ← emitConst ty d_bits
  let prod ← emitMul q d
  emitSub a prod

def expand (kind : DivKind) (width : Nat) (ty : IntegerType) (a : Value) (d_bits : Nat) :
    Emit Value :=
  match kind with
  | .udiv => expandUdiv width ty a d_bits
  | .sdiv => expandSdiv width ty a d_bits
  | .urem =>
    if isPowerOfTwo d_bits then do
      let mask ← emitConst ty (d_bits - 1)
      emitAnd a mask
    else do
      let q ← expandUdiv width ty a d_bits
      emitRemFromQuotient ty a q d_bits
  | .srem => do
    let q ← expandSdiv width ty a d_bits
    emitRemFromQuotient ty a q d_bits

/-- The value that replaces a division of `dividend` by a non-zero constant. -/
def reduceDiv (kind : DivKind) (dividend : Value) (divisor : ConstOperand) : Emit Value :=
  let ty := divisor.ty
  let d_bits := divisor.masked
  if d_bits = 1 then
    if kind.rem then emitConst ty 0 else pure dividend
  else if kind.signed ∧ divisor.signed = -1 then
    if kind.rem then emitConst ty 0
    else do
      let zero ← emitConst ty 0
      emitSub zero dividend
  else if divisor.width < 32 then do
    -- Widen to i32: quotient and remainder of the widened operands fit.
    let i32_ty := IntegerType.get 32
    let wide ← emitCast (if kind.signed then .sext else .zext) dividend i32_ty
    let wide_d :=
      if kind.signed then Lib.wrap 128 divisor.signed &&& maskToWidth (2 ^ 128 - 1) 32 else d_bits
    let wide_result ← expand kind 32 i32_ty wide wide_d
    emitCast .trunc wide_result ty
  else expand kind divisor.width ty dividend d_bits

/-- Rewrite one operation; `none` when it is left in place. -/
def rewriteDiv (defs : List Operation) (op : ScalarOp) : Emit (Option Value) :=
  match divKind op with
  | none => pure none
  | some (kind, dividend, divisor_v) =>
    match asConstOperand defs divisor_v with
    | none => pure none
    | some divisor =>
      -- i128 goes to libcalls, i1 divisions are degenerate.
      if ¬(divisor.width = 8 ∨ divisor.width = 16 ∨ divisor.width = 32 ∨ divisor.width = 64) then
        pure none
      -- Division by zero is left to the real divide.
      else if divisor.masked = 0 then pure none
      else some <$> reduceDiv kind dividend divisor

end Crabbit.Llvm
