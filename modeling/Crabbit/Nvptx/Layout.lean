/-
  Crabbit.Nvptx.Layout

  Sizes, alignments and field offsets of types as the NVPTX back end lays
  them out (`nvptx/mod.rs`), and the offset a `getelementptr` computes.
-/

import Crabbit.Lib.Align
import Crabbit.Nvptx.Ir

namespace Crabbit.Nvptx

open Crabbit.Lib (roundUp)
open Crabbit.Llvm (Value Ty GepIndex)

/-! ## Layout -/

def alignTo (value align : Nat) : Nat := if align ≤ 1 then value else roundUp value align

/-- The size of a type that has no parts. -/
def scalarSize : Ty → Option Nat
  | .int width _ => some (max ((width + 7) / 8) 1)
  | .pointer => some 8
  | .fp32 => some 4
  | .fp64 => some 8
  | _ => none

mutual

/-- Natural alignment: scalars align to their size (capped at 8), arrays to
    their element, structs to their most-aligned field. -/
def alignOfTy : Ty → Option Nat
  | .array elem _ => alignOfTy elem
  | .struct fields => alignOfFields fields 1
  | .int width sign => (scalarSize (.int width sign)).map fun size => min (max size 1) 8
  | .pointer => (scalarSize .pointer).map fun size => min (max size 1) 8
  | .fp32 => (scalarSize .fp32).map fun size => min (max size 1) 8
  | .fp64 => (scalarSize .fp64).map fun size => min (max size 1) 8
  | _ => none

/-- The alignment of the fields, and of what comes before them. -/
def alignOfFields : List Ty → Nat → Option Nat
  | [], align => some align
  | field :: fields, align => (alignOfTy field).bind fun a => alignOfFields fields (max align a)

end

mutual

/-- Byte size of a type when indexed through or loaded and stored. -/
def sizeOfTy : Ty → Option Nat
  | .array elem size =>
      (sizeOfTy elem).bind fun s => (alignOfTy elem).map fun a => alignTo s a * size
  | .struct fields => endOfFields fields 0 1
  | .int width sign => scalarSize (.int width sign)
  | .pointer => scalarSize .pointer
  | .fp32 => scalarSize .fp32
  | .fp64 => scalarSize .fp64
  | _ => none

/-- The size of a struct, the fields before these ending at `offset`. -/
def endOfFields : List Ty → Nat → Nat → Option Nat
  | [], offset, align => some (alignTo offset align)
  | field :: fields, offset, align =>
      (alignOfTy field).bind fun a => (sizeOfTy field).bind fun s =>
        endOfFields fields (alignTo offset a + s) (max align a)

end

/-- The byte offset and type of a field, the fields before these ending at
    `offset`. -/
def structFieldOffset : List Ty → Nat → Nat → Option (Nat × Ty)
  | [], _, _ => none
  | field :: fields, index, offset =>
      (alignOfTy field).bind fun a =>
        if index = 0 then some (alignTo offset a, field)
        else (sizeOfTy field).bind fun s =>
          structFieldOffset fields (index - 1) (alignTo offset a + s)

/-- The distance between two elements of an array of the type. -/
def strideOf (ty : Ty) : Option Nat :=
  (sizeOfTy ty).bind fun s => (alignOfTy ty).map fun a => alignTo s a

/-! ## Address computations -/

/-- The low `width` bits of a number, sign-extended to 64. -/
def sextBits (width n : Nat) : BitVec 64 :=
  if width < 64 then (BitVec.ofNat width n).signExtend 64 else BitVec.ofNat 64 n

/-- What an index counts: dynamic indices are signed. -/
def indexBits (bits : Value → Nat) : GepIndex → BitVec 64
  | .constant c => BitVec.ofNat 64 c
  | .value v => sextBits ((widthOf v.ty).getD 64) (bits v)

/-- The field an index names. -/
def fieldIndex (bits : Value → Nat) : GepIndex → Nat
  | .constant c => c
  | .value v => bits v

/-- The offset of what the indices descend to in a value of the type. -/
def gepDescend (bits : Value → Nat) : Ty → List GepIndex → Option (BitVec 64)
  | _, [] => some 0
  | .array elem _, index :: rest =>
      (strideOf elem).bind fun stride => (gepDescend bits elem rest).map fun offset =>
        indexBits bits index * BitVec.ofNat 64 stride + offset
  | .struct fields, index :: rest =>
      (structFieldOffset fields (fieldIndex bits index) 0).bind fun (start, ty) =>
        (gepDescend bits ty rest).map fun offset => BitVec.ofNat 64 start + offset
  | _, _ :: _ => none

/-- The distance of a `getelementptr`'s address from its base: the first index
    strides over the source element type, the others descend into it. -/
def gepOffset (bits : Value → Nat) (srcElemTy : Ty) : List GepIndex → Option (BitVec 64)
  | [] => some 0
  | index :: rest =>
      (strideOf srcElemTy).bind fun stride => (gepDescend bits srcElemTy rest).map fun offset =>
        indexBits bits index * BitVec.ofNat 64 stride + offset

end Crabbit.Nvptx
