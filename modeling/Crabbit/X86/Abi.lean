/-
  Crabbit.X86.Abi

  The callee's side of the System V calling convention: classification of
  the argument types (`abi_class`, `abi_type_layout`), their assignment to
  registers and stack slots (`assign_darwin_abi` of
  `passes/x86_64_darwin/frontend.rs`), and the operations by which the entry
  block reads them (`lower_function`).
-/

import Crabbit.X86.Ops
import Crabbit.Lib.Align
import Crabbit.Llvm.Types

namespace Crabbit.X86

open Crabbit.Llvm

/-- The errors of the ABI assignment and of instruction selection.
    `unsupportedTypeDebug` is `UnsupportedType` carrying the debug rendering
    of a type, `nonStackType` the text "non-stack type" before its printed
    form. -/
inductive X86_64DarwinErr where
  | unsupportedType (message : String)
  | unsupportedTypeDebug (ty : Ty)
  | nonStackType (ty : Ty)
  | unsupportedOp (message : String)
  deriving DecidableEq

/-! ## Layout -/

/-- `(value + align - 1) & !(align - 1)` on unsigned integers. -/
def alignTo (value align : Nat) : Nat :=
  if align ≤ 1 then value else Lib.roundUp value align

/-- `(bytes + 15) & !15`. -/
def alignTo16 (bytes : Nat) : Nat := Lib.roundUp bytes 16

/-- `u64::next_power_of_two`. -/
def nextPowerOfTwo (n : Nat) : Nat :=
  if n ≤ 1 then 1 else 2 ^ (Nat.log2 (n - 1) + 1)

/-- `width.div_ceil(8).max(1)`. -/
def intBytes (width : Nat) : Nat := max ((width + 7) / 8) 1

mutual

/-- Size and alignment of a type in bytes. -/
def abiTypeLayout : Ty → Except X86_64DarwinErr (Nat × Nat)
  | .unit => .ok (0, 1)
  | .pointer | .fp64 => .ok (8, 8)
  | .int width _ => .ok (intBytes width, min (nextPowerOfTwo (intBytes width)) 16)
  | .fp32 => .ok (4, 4)
  | .array elem len => do
    let (elementSize, alignment) ← abiTypeLayout elem
    .ok (alignTo elementSize alignment * len, alignment)
  | .opaqueStruct => .error (.unsupportedType "opaque aggregate ABI type")
  | .struct fields => do
    let (size, alignment) ← abiFieldsLayout fields 0 1
    .ok (alignTo size alignment, alignment)
  | .void => .error (.unsupportedTypeDebug .void)
  | .vector elem numElems => .error (.unsupportedTypeDebug (.vector elem numElems))

/-- The running size and alignment of a struct's fields. -/
def abiFieldsLayout : List Ty → Nat → Nat → Except X86_64DarwinErr (Nat × Nat)
  | [], size, alignment => .ok (size, alignment)
  | field :: fields, size, alignment => do
    let (fieldSize, fieldAlignment) ← abiTypeLayout field
    abiFieldsLayout fields (alignTo size fieldAlignment + fieldSize)
      (max alignment fieldAlignment)

end

/-! ## Classes and locations -/

inductive AbiClass where
  | int (size align : Nat)
  | aggregate (size align : Nat)
  | void
  deriving DecidableEq

def abiClass (ty : Ty) : Except X86_64DarwinErr AbiClass :=
  match ty with
  | .void | .unit => .ok .void
  | .pointer | .int _ _ => do
    let (size, align) ← abiTypeLayout ty
    .ok (.int size align)
  | .fp32 | .fp64 => .error (.unsupportedType "floating-point ABI lowering is not implemented")
  | .struct _ | .opaqueStruct | .array _ _ => do
    let (size, align) ← abiTypeLayout ty
    .ok (.aggregate size align)
  | .vector _ _ => .error (.unsupportedTypeDebug ty)

/-- The argument loop of `function_abi_classes`. -/
def argAbiClasses : List Ty → Except X86_64DarwinErr (List AbiClass)
  | [] => .ok []
  | arg :: args => do
    let cls ← abiClass arg
    let classes ← argAbiClasses args
    .ok (cls :: classes)

/-- The classes of a function's argument types and of its result. -/
def functionAbiClasses (args : List Ty) (result : Ty) :
    Except X86_64DarwinErr (List AbiClass × AbiClass) := do
  let classes ← argAbiClasses args
  let result ← abiClass result
  .ok (classes, result)

/-- Where an argument or the result lives. -/
inductive AbiLocation where
  | gpr (reg : Register)
  | gprPair (lo hi : Register)
  | indirectResult
  | stack (offset : Nat)
  | void
  deriving DecidableEq

structure FunctionAbi where
  args : List AbiLocation
  result : AbiLocation
  deriving DecidableEq

/-- System V AMD64 integer argument registers, in assignment order. -/
def ARG_GPRS : List Register := [RDI, RSI, RDX, RCX, R8, R9]

/-- The argument register at an index below 6. -/
def argGpr (index : Nat) : Register := ARG_GPRS.getD index RDI

/-- The location of the result. -/
def assignResult (name : String) : AbiClass → Except X86_64DarwinErr AbiLocation
  | .int size _ =>
    if size ≤ 8 then .ok (.gpr RAX)
    else if size ≤ 16 then .ok (.gprPair RAX RDX)
    else .error (.unsupportedType s!"integer result of {size} bytes in `{name}`")
  | .aggregate size _ =>
    if size = 0 then .ok .void
    else if size ≤ 8 then .ok (.gpr RAX)
    else if size ≤ 16 then .ok (.gprPair RAX RDX)
    else .ok .indirectResult
  | .void => .ok .void

/-- The counters of the callee's walk: next argument register, next free
    byte of the stack-argument area. -/
structure AbiWalk where
  gpr : Nat
  stackOffset : Nat
  deriving DecidableEq

/-- One iteration of the argument loop of `assign_darwin_abi`. -/
def assignArg (name : String) (w : AbiWalk) :
    AbiClass → Except X86_64DarwinErr (AbiLocation × AbiWalk)
  | .int size align =>
    if size ≤ 8 then
      if w.gpr < 6 then
        .ok (.gpr (argGpr w.gpr), { w with gpr := w.gpr + 1 })
      else
        .ok (.stack w.stackOffset, { w with stackOffset := w.stackOffset + 8 })
    else if size ≤ 16 then
      if w.gpr + 2 ≤ 6 then
        .ok (.gprPair (argGpr w.gpr) (argGpr (w.gpr + 1)), { w with gpr := w.gpr + 2 })
      else
        -- The registers that are left stay free for later arguments.
        let stackOffset := alignTo w.stackOffset align
        .ok (.stack stackOffset, { w with stackOffset := stackOffset + 16 })
    else
      .error (.unsupportedType s!"integer argument of {size} bytes in `{name}`")
  | .void => .ok (.void, w)
  | .aggregate size _ =>
    if size = 0 then .ok (.void, w)
    else .error (.unsupportedType s!"aggregate argument in `{name}`")

/-- The argument loop of `assign_darwin_abi`. -/
def assignArgs (name : String) :
    AbiWalk → List AbiClass → Except X86_64DarwinErr (List AbiLocation)
  | _, [] => .ok []
  | w, arg :: args => do
    let (location, w') ← assignArg name w arg
    let locations ← assignArgs name w' args
    .ok (location :: locations)

/-- An indirect result consumes `rdi` as the hidden first argument. -/
def assignDarwinAbi (name : String) (args : List AbiClass) (result : AbiClass) :
    Except X86_64DarwinErr FunctionAbi := do
  let result ← assignResult name result
  let locations ← assignArgs name ⟨if result = .indirectResult then 1 else 0, 0⟩ args
  .ok { args := locations, result }

/-! ## Entry lowering -/

def is128BitInteger : Ty → Bool
  | .int width _ => width == 128
  | _ => false

/-- The loads and copies that bring one incoming argument into virtual
    registers, with the next free register number; `isel` queues the copies
    behind the loads of all arguments. -/
structure EntryLowering where
  loads : List Inst
  copies : List Inst
  nextVreg : Nat

/-- One iteration of the argument loop at the start of `lower_function`. -/
def lowerEntryArg (ty : Ty) (nextVreg : Nat) :
    AbiLocation → Except X86_64DarwinErr EntryLowering
  | .void => .ok ⟨[], [], nextVreg⟩
  | .stack offset =>
    if is128BitInteger ty then
      .ok ⟨[.ldrStackArg (.virtualGpr nextVreg) offset,
          .ldrStackArg (.virtualGpr (nextVreg + 1)) (offset + 8)], [], nextVreg + 2⟩
    else
      .ok ⟨[.ldrStackArg (.virtualGpr nextVreg) offset], [], nextVreg + 1⟩
  | .gprPair lo hi =>
    .ok ⟨[], [.mov (.virtualGpr nextVreg) lo, .mov (.virtualGpr (nextVreg + 1)) hi], nextVreg + 2⟩
  | .gpr reg => .ok ⟨[], [.mov (.virtualGpr nextVreg) reg], nextVreg + 1⟩
  | .indirectResult => .error (.unsupportedOp "indirect-result ABI location on a function argument")

/-- The argument loop, argument by argument. -/
def lowerEntryArgs : List Ty → List AbiLocation → Nat → Except X86_64DarwinErr (List EntryLowering)
  | ty :: tys, location :: locations, nextVreg => do
    let lowered ← lowerEntryArg ty nextVreg location
    let rest ← lowerEntryArgs tys locations lowered.nextVreg
    .ok (lowered :: rest)
  | _, _, _ => .ok []

/-- The operations at the head of the entry block: the stack-argument loads,
    the register copies, and the save of the hidden result pointer into its
    slot. -/
def entryOps (args : List EntryLowering) (sretSlot : Option Nat) : List Inst :=
  (args.map (·.loads)).flatten ++ (args.map (·.copies)).flatten ++
    (sretSlot.map fun offset => .strSpOffset RDI offset).toList

end Crabbit.X86
