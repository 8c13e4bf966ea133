/-
  Crabbit.X86.CallLowering

  The caller's side of the System V calling convention: the stack layout of
  values, the location of a call's result, and the call sequence that
  `lower_function` emits (`passes/x86_64_darwin/llvm_to_x86_64_isel.rs`,
  `isel_memory_abi.rs`).
-/

import Crabbit.X86.Abi

namespace Crabbit.X86

open Crabbit.Llvm

/-! ## Stack layout -/

mutual

/-- `stack_align_of`. -/
def stackAlignOf : Ty → Except X86_64DarwinErr Nat
  | .unit | .void => .ok 1
  | .int width _ => .ok (min (max (intBytes width) 1) 8)
  | .pointer => .ok 8
  | .array elem _ => stackAlignOf elem
  | .struct fields => fieldsAlign fields 1
  | .opaqueStruct => .error (.unsupportedType "opaque struct stack slot")
  | .fp32 => .error (.unsupportedTypeDebug .fp32)
  | .fp64 => .error (.unsupportedTypeDebug .fp64)
  | .vector elem numElems => .error (.unsupportedTypeDebug (.vector elem numElems))

/-- The running alignment of a struct's fields. -/
def fieldsAlign : List Ty → Nat → Except X86_64DarwinErr Nat
  | [], align => .ok align
  | field :: fields, align => do
    let fieldAlign ← stackAlignOf field
    fieldsAlign fields (max align fieldAlign)

end

mutual

/-- `stack_size_of`: zero-sized types, scalars, arrays of equal strides, and
    structs up to the end of the last field of `aggregate_field_layout`. -/
def stackSizeOf : Ty → Except X86_64DarwinErr Nat
  | .unit | .void => .ok 0
  | .int width _ => .ok (intBytes width)
  | .pointer => .ok 8
  | .array elem len => do
    let elemSize ← stackSizeOf elem
    if elemSize = 0 then .ok 0
    else
      let align ← stackAlignOf elem
      .ok (alignTo elemSize align * len)
  | .struct [] => .ok 0
  | .struct (field :: fields) => do
    let unpadded ← fieldsEnd (field :: fields) 0
    let align ← fieldsAlign (field :: fields) 1
    .ok (alignTo unpadded align)
  | .opaqueStruct => .error (.unsupportedType "opaque struct layout")
  | .fp32 => .error (.nonStackType .fp32)
  | .fp64 => .error (.nonStackType .fp64)
  | .vector elem numElems => .error (.nonStackType (.vector elem numElems))

/-- The running offset of `aggregate_field_layout`, up to the end of the last
    field; a zero-sized field leaves the offset unaligned. -/
def fieldsEnd : List Ty → Nat → Except X86_64DarwinErr Nat
  | [], offset => .ok offset
  | field :: fields, offset => do
    let fieldSize ← stackSizeOf field
    if fieldSize = 0 then fieldsEnd fields offset
    else
      let align ← stackAlignOf field
      fieldsEnd fields (alignTo offset align + fieldSize)

end

def isAggregate : Ty → Bool
  | .array _ _ | .struct _ | .opaqueStruct => true
  | _ => false

/-- Where the caller finds the result of a call. -/
inductive ResultLocation where
  | void | scalarRax | scalarRaxRdx
  | directGprs (count : Nat)
  | indirectRdi
  deriving DecidableEq

def resultLocationForType (ty : Ty) : Except X86_64DarwinErr ResultLocation := do
  let size ← stackSizeOf ty
  if size = 0 then .ok .void
  else if is128BitInteger ty then .ok .scalarRaxRdx
  else if isAggregate ty then
    if size ≤ 8 then .ok (.directGprs 1)
    else if size ≤ 16 then .ok (.directGprs 2)
    else .ok .indirectRdi
  else .ok .scalarRax

/-! ## The call sequence -/

/-- An argument after materialization: `src` is the register of a scalar and
    the low half of a 128-bit integer, `srcHi` the high half (read for
    128-bit integers only).  A zero-sized argument is materialized too: its
    register holds the zero that stands for an undefined value. -/
structure LoweredArg where
  ty : Ty
  src : Register
  srcHi : Register

/-- The registers an argument contributes to `arg_regs`. -/
def LoweredArg.regs (arg : LoweredArg) : List Register :=
  if is128BitInteger arg.ty then [arg.src, arg.srcHi] else [arg.src]

/-- The vector `arg_regs`. -/
def argRegs (args : List LoweredArg) : List Register :=
  (args.map LoweredArg.regs).flatten

inductive CallCallee where
  | direct (symbol : String)
  | indirect (target : Register)

/-- `outgoing_stack_size`. -/
def outgoingStackSize (argRegBase : Nat) (regs : List Register) : Nat :=
  alignTo16 ((regs.length + argRegBase - 6) * 8)

/-- One round of the argument loop: the operation that leaves `src` in its
    slot. -/
def placeArgReg (slot : Nat) (src : Register) : Inst :=
  if slot < 6 then .mov (argGpr slot) src else .strSpOffset src ((slot - 6) * 8)

/-- The argument loop over `arg_regs`, from a slot on. -/
def placeArgRegs : Nat → List Register → List Inst
  | _, [] => []
  | slot, src :: regs => placeArgReg slot src :: placeArgRegs (slot + 1) regs

/-- `arg_reg_base`: an indirect result shifts the visible arguments by one
    register. -/
def argRegBase (result : ResultLocation) : Nat :=
  if result = .indirectRdi then 1 else 0

/-- The operations of a call, from the lowering of `rsp` to its restoration.
    `resultSlot` is the frame offset of the slot of an indirect result. -/
def lowerCall (callee : CallCallee) (args : List LoweredArg) (result : ResultLocation)
    (resultSlot : Nat) : List Inst :=
  let regs := argRegs args
  let base := argRegBase result
  let outgoing := outgoingStackSize base regs
  (if 0 < outgoing then [.subSpImm outgoing] else []) ++
    (match callee with
      | .direct _ => []
      | .indirect target => [.mov R11 target]) ++
    placeArgRegs base regs ++
    (if result = .indirectRdi then [.addSpOffset RDI (resultSlot + outgoing)] else []) ++
    [match callee with
      | .direct symbol => .call symbol
      | .indirect _ => .callReg R11] ++
    (if 0 < outgoing then [.addSpImm outgoing] else [])

end Crabbit.X86
