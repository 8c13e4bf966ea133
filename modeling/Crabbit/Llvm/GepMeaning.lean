/-
  Crabbit.Llvm.GepMeaning

  What LLVM makes of a `getelementptr`.

  The layout is that of the data layouts of the three targets, which agree on
  it: integers up to 64 bits are aligned like the next of the widths 8, 16, 32
  and 64, wider ones to 16 bytes, and elements are apart by their allocation
  size.  A walk over the type and the indices gives one amount for each index,
  and the displacement is their sum; the walk is a function of the layout, for
  the code that walks the same way over another.
-/

import Mathlib.Data.BitVec
import Crabbit.Lib.Align
import Crabbit.Llvm.Function

namespace Crabbit.Llvm

open Crabbit.Lib (nextMultipleOf)

/-! ## Layout -/

/-- The alignment of an integer. -/
def intAbiAlign (width : Nat) : Nat :=
  if width ≤ 8 then 1
  else if width ≤ 16 then 2
  else if width ≤ 32 then 4
  else if width ≤ 64 then 8
  else 16

mutual

def abiAlign : Ty → Option Nat
  | .int width _ => some (intAbiAlign width)
  | .pointer => some 8
  | .fp32 => some 4
  | .fp64 => some 8
  | .array elem _ => abiAlign elem
  | .struct fields => fieldsAbiAlign fields 1
  | _ => none

/-- The alignment of the fields, and of what comes before them. -/
def fieldsAbiAlign : List Ty → Nat → Option Nat
  | [], align => some align
  | field :: fields, align =>
      (abiAlign field).bind fun a => fieldsAbiAlign fields (max align a)

end

mutual

/-- How far apart two values of the type in a row begin. -/
def allocSize : Ty → Option Nat
  | .int width _ => some (nextMultipleOf ((width + 7) / 8) (intAbiAlign width))
  | .pointer => some 8
  | .fp32 => some 4
  | .fp64 => some 8
  | .array elem len => (allocSize elem).map fun size => size * len
  | .struct fields => (fieldsAllocEnd fields 0).bind fun stop =>
      (fieldsAbiAlign fields 1).map fun align => nextMultipleOf stop align
  | _ => none

/-- Where the fields end that begin after `offset`. -/
def fieldsAllocEnd : List Ty → Nat → Option Nat
  | [], offset => some offset
  | field :: fields, offset =>
      (abiAlign field).bind fun align => (allocSize field).bind fun size =>
        fieldsAllocEnd fields (nextMultipleOf offset align + size)

end

/-- The offset and the type of a field, the fields before these ending at
    `offset`. -/
def elementOffset : List Ty → Nat → Nat → Option (Nat × Ty)
  | [], _, _ => none
  | field :: _, 0, offset =>
      (abiAlign field).map fun align => (nextMultipleOf offset align, field)
  | field :: fields, index + 1, offset =>
      (abiAlign field).bind fun align => (allocSize field).bind fun size =>
        elementOffset fields index (nextMultipleOf offset align + size)

/-! ## The walk -/

/-- How indices are read and types laid out. -/
structure GepReading where
  /-- How many elements an index goes over. -/
  count : GepIndex → Option (BitVec 64)
  stride : Ty → Option Nat
  /-- The field an index names. -/
  name : GepIndex → Nat
  field : List Ty → Nat → Option (Nat × Ty)

namespace GepReading

variable (r : GepReading)

/-- What an index over elements of a type adds. -/
def step (index : GepIndex) (elem : Ty) : Option (BitVec 64) :=
  (r.count index).bind fun count => (r.stride elem).map fun stride =>
    count * BitVec.ofNat 64 stride

/-- What the indices that descend into a type add. -/
def descend : Ty → List GepIndex → Option (List (BitVec 64))
  | _, [] => some []
  | .array elem _, index :: rest =>
      (r.step index elem).bind fun amount => (descend elem rest).map (amount :: ·)
  | .struct fields, index :: rest =>
      (r.field fields (r.name index)).bind fun found =>
        (descend found.2 rest).map (BitVec.ofNat 64 found.1 :: ·)
  | _, _ :: _ => none

/-- What each index adds: the first goes over values of the type, the others
    descend into one. -/
def amounts (srcElemTy : Ty) : List GepIndex → Option (List (BitVec 64))
  | [] => some []
  | index :: rest =>
      (r.step index srcElemTy).bind fun amount =>
        (r.descend srcElemTy rest).map (amount :: ·)

variable {r}

theorem descend_take {ty : Ty} {indices : List GepIndex} {steps : List (BitVec 64)}
    (h : r.descend ty indices = some steps) (n : Nat) :
    r.descend ty (indices.take n) = some (steps.take n) ∧ steps.length = indices.length := by
  induction indices generalizing ty steps n with
  | nil =>
      have hnil : r.descend ty [] = some [] := by cases ty <;> rfl
      obtain rfl := Option.some.inj (hnil.symm.trans h)
      rw [List.take_nil, List.take_nil]
      exact ⟨hnil, rfl⟩
  | cons index rest ih =>
      cases ty
      case array elem len =>
        obtain ⟨amount, hamount, h⟩ := Option.bind_eq_some_iff.mp h
        obtain ⟨tail, htail, rfl⟩ := Option.map_eq_some_iff.mp h
        refine ⟨?_, congrArg (· + 1) (ih htail n).2⟩
        cases n with
        | zero => rfl
        | succ n =>
            rw [List.take_succ_cons, List.take_succ_cons, descend, hamount, Option.bind_some,
              (ih htail n).1]
            rfl
      case struct fields =>
        obtain ⟨found, hfound, h⟩ := Option.bind_eq_some_iff.mp h
        obtain ⟨tail, htail, rfl⟩ := Option.map_eq_some_iff.mp h
        refine ⟨?_, congrArg (· + 1) (ih htail n).2⟩
        cases n with
        | zero => rfl
        | succ n =>
            rw [List.take_succ_cons, List.take_succ_cons, descend, hfound, Option.bind_some,
              (ih htail n).1]
            rfl
      all_goals cases h

/-- The first indices add what they add among all. -/
theorem amounts_take {ty : Ty} {indices : List GepIndex} {steps : List (BitVec 64)}
    (h : r.amounts ty indices = some steps) (n : Nat) :
    r.amounts ty (indices.take n) = some (steps.take n) ∧ steps.length = indices.length := by
  cases indices with
  | nil =>
      obtain rfl := Option.some.inj h
      rw [List.take_nil, List.take_nil]
      exact ⟨rfl, rfl⟩
  | cons index rest =>
      obtain ⟨amount, hamount, h⟩ := Option.bind_eq_some_iff.mp h
      obtain ⟨tail, htail, rfl⟩ := Option.map_eq_some_iff.mp h
      refine ⟨?_, congrArg (· + 1) (descend_take htail n).2⟩
      cases n with
      | zero => rfl
      | succ n =>
          rw [List.take_succ_cons, List.take_succ_cons, amounts, hamount, Option.bind_some,
            (descend_take htail n).1]
          rfl

end GepReading

/-! ## LLVM's reading -/

/-- Indices are signed integers, extended to the width of an address. -/
def indexCount (bits : Value → Nat) : GepIndex → Option (BitVec 64)
  | .constant c => some (BitVec.ofNat 64 c)
  | .value v => match v.ty with
      | .int width _ => some ((BitVec.ofNat width (bits v)).signExtend 64)
      | _ => none

def indexName (bits : Value → Nat) : GepIndex → Nat
  | .constant c => c
  | .value v => bits v

def gepReading (bits : Value → Nat) : GepReading where
  count := indexCount bits
  stride := allocSize
  name := indexName bits
  field fields index := elementOffset fields index 0

/-- The distance of the address from the base. -/
def gepDisplacement (bits : Value → Nat) (srcElemTy : Ty) (indices : List GepIndex) :
    Option (BitVec 64) :=
  ((gepReading bits).amounts srcElemTy indices).map List.sum

end Crabbit.Llvm
