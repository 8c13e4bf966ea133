/-
  Crabbit.Aarch64.Abi

  The callee's side of the AArch64 calling convention: classification of the
  argument types (`abi_class`, `abi_type_layout`) and their assignment to
  registers and stack slots (`assign_abi` of `passes/aarch64/frontend.rs`).
-/

import Crabbit.Aarch64.Registers
import Crabbit.Lib.Align
import Crabbit.Llvm.Types

namespace Crabbit.Aarch64

open Crabbit.Llvm

/-- Operating system flavour of the target. -/
inductive TargetOs where
  | darwin | linux
  deriving DecidableEq

/-- AAPCS64 starts a 16-byte-aligned integer pair at an even-numbered GPR;
    Apple's ABI drops that requirement. -/
def TargetOs.requiresEvenGprPairs : TargetOs → Bool
  | .linux => true
  | .darwin => false

/-- The errors the ABI assignment raises.  `unsupportedTypeDebug` is
    `UnsupportedType` carrying the debug rendering of a type. -/
inductive Aarch64Err where
  | unsupportedType (message : String)
  | unsupportedTypeDebug (ty : Ty)
  deriving DecidableEq

/-! ## Layout -/

/-- `(value + align - 1) & !(align - 1)` on unsigned integers. -/
def alignTo (value align : Nat) : Nat :=
  if align ≤ 1 then value else Lib.roundUp value align

/-- `(bytes + 15) & !15`. -/
def alignTo16 (bytes : Nat) : Nat := Lib.roundUp bytes 16

/-- `u64::next_power_of_two`. -/
def nextPowerOfTwo (n : Nat) : Nat :=
  if n ≤ 1 then 1 else 2 ^ (Nat.log2 (n - 1) + 1)

mutual

/-- Size and alignment of a type in bytes. -/
def abiTypeLayout : Ty → Except Aarch64Err (Nat × Nat)
  | .unit => .ok (0, 1)
  | .pointer | .fp64 => .ok (8, 8)
  | .int width _ =>
    let size := max ((width + 7) / 8) 1
    .ok (size, min (nextPowerOfTwo size) 16)
  | .fp32 => .ok (4, 4)
  | .array elem len => do
    let (elementSize, alignment) ← abiTypeLayout elem
    .ok (alignTo elementSize alignment * len, alignment)
  | .opaqueStruct => .error (.unsupportedType "opaque aggregate ABI type")
  | .struct fields => do
    let (size, alignment) ← abiFieldsLayout fields 0 1
    .ok (alignTo size alignment, alignment)
  | .void => .error (.unsupportedTypeDebug .void)
  | .vector elem numElems => .error (.unsupportedTypeDebug (.vector elem numElems))

/-- The running size and alignment of a struct's fields. -/
def abiFieldsLayout : List Ty → Nat → Nat → Except Aarch64Err (Nat × Nat)
  | [], size, alignment => .ok (size, alignment)
  | field :: fields, size, alignment => do
    let (fieldSize, fieldAlignment) ← abiTypeLayout field
    abiFieldsLayout fields (alignTo size fieldAlignment + fieldSize)
      (max alignment fieldAlignment)

end

/-! ## Classes and locations -/

inductive AbiClass where
  | int (size align : Nat)
  | float (size : Nat)
  | aggregate (size align : Nat)
  | void
  deriving DecidableEq

def abiClass (ty : Ty) : Except Aarch64Err AbiClass :=
  match ty with
  | .void | .unit => .ok .void
  | .pointer | .int _ _ => do
    let (size, align) ← abiTypeLayout ty
    .ok (.int size align)
  | .fp32 => .ok (.float 4)
  | .fp64 => .ok (.float 8)
  | .struct _ | .opaqueStruct | .array _ _ => do
    let (size, align) ← abiTypeLayout ty
    .ok (.aggregate size align)
  | .vector _ _ => .error (.unsupportedTypeDebug ty)

/-- The classes of a function's argument types, in order. -/
def functionAbiClasses : List Ty → Except Aarch64Err (List AbiClass)
  | [] => .ok []
  | arg :: args => do
    let cls ← abiClass arg
    let classes ← functionAbiClasses args
    .ok (cls :: classes)

/-- Where an argument or the result lives. -/
inductive AbiLocation where
  | gpr (reg : Register)
  | gprPair (lo hi : Register)
  | indirectResult (reg : Register)
  | stack (offset : Nat)
  | void
  deriving DecidableEq

structure FunctionAbi where
  args : List AbiLocation
  result : AbiLocation
  deriving DecidableEq

/-- The counters of the callee's walk: next integer register, next FP
    register, next free byte of the stack-argument area. -/
structure AbiWalk where
  gpr : Nat
  fpr : Nat
  stackOffset : Nat
  deriving DecidableEq

/-- One iteration of the argument loop of `assign_abi`. -/
def assignArg (os : TargetOs) (name : String) (w : AbiWalk) :
    AbiClass → Except Aarch64Err (AbiLocation × AbiWalk)
  | .float size =>
    if w.fpr < 8 then
      let reg := if size = 8 then Register.fpr64 w.fpr else Register.fpr32 w.fpr
      .ok (.gpr reg, { w with fpr := w.fpr + 1 })
    else
      let stackOffset := alignTo w.stackOffset 8
      .ok (.stack stackOffset, { w with fpr := 8, stackOffset := stackOffset + 8 })
  | .int size align =>
    if size ≤ 8 then
      if w.gpr < 8 then
        .ok (.gpr (.gpr w.gpr), { w with gpr := w.gpr + 1 })
      else
        .ok (.stack w.stackOffset, { w with stackOffset := w.stackOffset + 8 })
    else if size ≤ 16 then
      let gpr := if os.requiresEvenGprPairs then w.gpr + w.gpr % 2 else w.gpr
      if gpr ≤ 6 then
        .ok (.gprPair (.gpr gpr) (.gpr (gpr + 1)), { w with gpr := gpr + 2 })
      else
        let stackOffset := alignTo w.stackOffset align
        .ok (.stack stackOffset, { w with gpr := 8, stackOffset := stackOffset + 16 })
    else
      .error (.unsupportedType s!"integer argument of {size} bytes in `{name}`")
  | .void => .ok (.void, w)
  | .aggregate size _ =>
    if size = 0 then .ok (.void, w)
    else .error (.unsupportedType s!"aggregate argument in `{name}`")

/-- The argument loop of `assign_abi`. -/
def assignArgs (os : TargetOs) (name : String) :
    AbiWalk → List AbiClass → Except Aarch64Err (List AbiLocation)
  | _, [] => .ok []
  | w, arg :: args => do
    let (location, w') ← assignArg os name w arg
    let locations ← assignArgs os name w' args
    .ok (location :: locations)

/-- The location of the result. -/
def assignResult (name : String) : AbiClass → Except Aarch64Err AbiLocation
  | .float size => .ok (.gpr (if size = 8 then .fpr64 0 else .fpr32 0))
  | .int size _ =>
    if size ≤ 8 then .ok (.gpr (.gpr 0))
    else if size ≤ 16 then .ok (.gprPair (.gpr 0) (.gpr 1))
    else .error (.unsupportedType s!"integer result of {size} bytes in `{name}`")
  | .aggregate size _ =>
    if size = 0 then .ok .void
    else if size ≤ 8 then .ok (.gpr (.gpr 0))
    else if size ≤ 16 then .ok (.gprPair (.gpr 0) (.gpr 1))
    else .ok (.indirectResult X8)
  | .void => .ok .void

def assignAbi (os : TargetOs) (name : String) (args : List AbiClass) (result : AbiClass) :
    Except Aarch64Err FunctionAbi := do
  let locations ← assignArgs os name ⟨0, 0, 0⟩ args
  let result ← assignResult name result
  .ok { args := locations, result }

end Crabbit.Aarch64
