/-
  Crabbit.Aarch64.CallLowering

  The caller's side of the AArch64 calling convention: the argument walk of
  the call lowering and the sizing of the outgoing stack-argument area
  (`passes/aarch64/llvm_to_aarch64_isel.rs`), against the locations
  `assignAbi` gives the callee.
-/

import Crabbit.Aarch64.Abi

namespace Crabbit.Aarch64

open Crabbit.Llvm

/-! ## The caller's walk -/

inductive FpKind where
  | f32 | f64
  deriving DecidableEq

def fpKind : Ty → Option FpKind
  | .fp32 => some .f32
  | .fp64 => some .f64
  | _ => none

def is128BitInteger : Ty → Bool
  | .int width _ => width == 128
  | _ => false

/-- Where the caller puts one word of an argument. -/
inductive CallArgDst where
  | gpr (number : Nat)
  | fpr (reg : Register)
  | stack (offset : Nat)
  deriving DecidableEq

/-- An argument after materialization: `src` is the register of a scalar and
    the low half of a 128-bit integer, `srcHi` the high half (read for
    128-bit integers only). -/
structure LoweredArg where
  ty : Ty
  src : Register
  srcHi : Register

structure CallWalk where
  nextGpr : Nat
  nextFpr : Nat
  nextStack : Nat
  deriving DecidableEq

/-- The closure `push_gpr`. -/
def pushGpr (src : Register) (w : CallWalk) : (Register × CallArgDst) × CallWalk :=
  if w.nextGpr < 8 then ((src, .gpr w.nextGpr), { w with nextGpr := w.nextGpr + 1 })
  else ((src, .stack w.nextStack), { w with nextStack := w.nextStack + 8 })

/-- One iteration of the argument loop of the call lowering. -/
def placeCallArg (arg : LoweredArg) (w : CallWalk) : List (Register × CallArgDst) × CallWalk :=
  match fpKind arg.ty with
  | some fp =>
    if w.nextFpr < 8 then
      let dst := match fp with
        | .f64 => Register.fpr64 w.nextFpr
        | .f32 => Register.fpr32 w.nextFpr
      ([(arg.src, .fpr dst)], { w with nextFpr := w.nextFpr + 1 })
    else
      ([(arg.src, .stack w.nextStack)], { w with nextStack := w.nextStack + 8 })
  | none =>
    if is128BitInteger arg.ty then
      let (lo, w₁) := pushGpr arg.src w
      let (hi, w₂) := pushGpr arg.srcHi w₁
      ([lo, hi], w₂)
    else
      let (word, w₁) := pushGpr arg.src w
      ([word], w₁)

/-- The moves of each argument, in argument order. -/
def placeCallArgsFrom : CallWalk → List LoweredArg → List (List (Register × CallArgDst))
  | _, [] => []
  | w, arg :: args =>
    let (moves, w') := placeCallArg arg w
    moves :: placeCallArgsFrom w' args

def placeCallArgs (args : List LoweredArg) : List (List (Register × CallArgDst)) :=
  placeCallArgsFrom ⟨0, 0, 0⟩ args

/-- The queue `arg_moves` of the call lowering. -/
def argMoves (args : List LoweredArg) : List (Register × CallArgDst) :=
  (placeCallArgs args).flatten

/-! ## The outgoing stack-argument area -/

/-- The closure `take_gpr`. -/
def takeGpr (nextGpr stack : Nat) : Nat × Nat :=
  if nextGpr < 8 then (nextGpr + 1, stack) else (nextGpr, stack + 8)

def outgoingStackBytesFrom : Nat → Nat → Nat → List Ty → Nat
  | _, _, stack, [] => stack
  | nextGpr, nextFpr, stack, ty :: args =>
    if (fpKind ty).isSome then
      if nextFpr < 8 then outgoingStackBytesFrom nextGpr (nextFpr + 1) stack args
      else outgoingStackBytesFrom nextGpr nextFpr (stack + 8) args
    else if is128BitInteger ty then
      let (nextGpr, stack) := takeGpr nextGpr stack
      let (nextGpr, stack) := takeGpr nextGpr stack
      outgoingStackBytesFrom nextGpr nextFpr stack args
    else
      let (nextGpr, stack) := takeGpr nextGpr stack
      outgoingStackBytesFrom nextGpr nextFpr stack args

def outgoingStackBytesForCall (args : List Ty) : Nat :=
  outgoingStackBytesFrom 0 0 0 args

/-- A body operation, as far as the sizing of the outgoing area looks at it. -/
inductive BodyOp where
  | call (args : List Ty)
  | other

/-- The largest outgoing stack-argument area any call in `blocks` needs. -/
def maxOutgoingStackBytes (blocks : List (List BodyOp)) : Nat :=
  alignTo16 <| blocks.flatten.foldl (fun acc op =>
    match op with
    | .call args => max acc (outgoingStackBytesForCall args)
    | .other => acc) 0

end Crabbit.Aarch64
