/-
  Crabbit.Isel.BlockArgs

  Block arguments at a branch edge (`passes/aarch64/isel_control_flow.rs` and
  `passes/x86_64_darwin/isel_control_flow.rs`, with `block_arg_registers`): the
  incoming values are flattened into registers, then the copies are emitted in an
  order that makes them parallel.
-/

import Crabbit.Isel.LoweredValue
import Crabbit.Lib.ParallelCopy

namespace Crabbit.Isel

open Crabbit.Lib (Copy redirect unread find?_redirect_isSome length_eraseP_unread length_redirect
  redirect_self)
open Crabbit.Llvm (Ty Value)

variable {T : Target}

/-! ## Sources and destinations -/

/-- The fields of an incoming aggregate, as many as its type has: those that are
    missing are undefined. -/
def fieldValues {R : Type} (count : Nat) :
    LoweredValue R → Except String (List (LoweredValue R))
  | .undef => .ok (List.replicate count .undef)
  | .aggregate fields => .ok ((fields.map (·.getD .undef)).takeD count .undef)
  | _ => .error "aggregate block argument fed by non-aggregate"

mutual

/-- `block_arg_registers`; a value of another form is unreachable. -/
def blockArgRegisters {R : Type} : LoweredValue R → Option (List R)
  | .reg r => some [r]
  | .regPair lo hi => some [lo, hi]
  | .aggregate fields => blockArgFieldsRegisters fields
  | .undef => some []
  | _ => none

def blockArgFieldsRegisters {R : Type} : List (Option (LoweredValue R)) → Option (List R)
  | [] => some []
  | none :: fields => blockArgFieldsRegisters fields
  | some field :: fields => do
    let first ← blockArgRegisters field
    let rest ← blockArgFieldsRegisters fields
    pure (first ++ rest)

end

/-- Selections of lists of registers, one after another. -/
def flattenEach {α : Type} (f : α → Select T (List (Option T.Register))) :
    List α → Select T (List (Option T.Register))
  | [] => pure []
  | value :: values => do
    let first ← f value
    let rest ← flattenEach f values
    pure (first ++ rest)

/-- What emits no code, as part of a selection. -/
def ofExcept {α : Type} : Except String α → Select T α
  | .ok a => pure a
  | .error e => throw e

namespace Lowering

variable (L : Lowering T)

/-- `flatten_incoming` of a type that has no fields. -/
def flattenScalar (value : LoweredValue T.Register) (ty : Ty) :
    Select T (List (Option T.Register)) :=
  match is128BitInteger ty, value with
  | true, .undef => pure [none, none]
  | true, value => do
    let pair ← L.materializePair value ty
    pure [some pair.1, some pair.2]
  | false, .undef => pure [none]
  | false, value => do
    let reg ← L.materializeTyped value ty
    pure [some reg]

/-- The fields of a value of an aggregate type. -/
def incomingFields (value : LoweredValue T.Register) (ty : Ty) (count : Nat) :
    Except String (List (LoweredValue T.Register)) :=
  L.adaptValueToType value ty >>= fieldValues count

mutual

/-- `flatten_incoming`, with the types of `struct_fields`: one register for each
    scalar leaf, none for one that is undefined. -/
def flattenIncoming : Ty → LoweredValue T.Register → Select T (List (Option T.Register))
  | .unit, _ | .void, _ => pure []
  | .array elem size, value => do
    let values ← ofExcept (L.incomingFields value (.array elem size) size)
    flattenEach (fun value => flattenIncoming elem value) values
  | .struct fields, value => do
    let values ← ofExcept (L.incomingFields value (.struct fields) fields.length)
    flattenFields fields values
  | .opaqueStruct, value => do
    let _ ← ofExcept (L.adaptValueToType value .opaqueStruct)
    throw "opaque struct stack slot"
  | ty, value => do
    let value ← ofExcept (L.adaptValueToType value ty)
    L.flattenScalar value ty

def flattenFields : List Ty → List (LoweredValue T.Register) →
    Select T (List (Option T.Register))
  | ty :: tys, value :: values => do
    let first ← flattenIncoming ty value
    let rest ← flattenFields tys values
    pure (first ++ rest)
  | _, _ => pure []

end

/-! ## The copies -/

/-- The copies of one block argument; a register that keeps its value needs
    none. -/
def argumentCopies (values : Value → Option (LoweredValue T.Register)) (arg destArg : Value) :
    Select T (List (Copy T.Register)) := do
  match values arg, values destArg with
  | none, _ => throw "undefined value"
  | some _, none => throw "undefined value"
  | some src, some dest =>
    match blockArgRegisters dest with
    | none => throw "block arguments lower to registers"
    | some dstRegs =>
      let srcRegs ← L.flattenIncoming destArg.ty src
      if dstRegs.length ≠ srcRegs.length then throw "block argument register count mismatch"
      else pure ((dstRegs.zip srcRegs).filter fun copy => decide (copy.2 ≠ some copy.1))

/-- The copies of all block arguments. -/
def pendingCopies (values : Value → Option (LoweredValue T.Register)) :
    List (Value × Value) → Select T (List (Copy T.Register))
  | [] => pure []
  | (arg, destArg) :: args => do
    let first ← L.argumentCopies values arg destArg
    let rest ← pendingCopies values args
    pure (first ++ rest)

end Lowering

/-- How a back end copies registers. -/
structure Copies (T : Target) where
  /-- A register for the values of another one, by the number of the next virtual
      register. -/
  scratch : T.Register → Nat → T.Register
  scratch_ne : ∀ r n, scratch r n ≠ scratch r (n + 1)
  /-- `emit_move`: destination first; none between incompatible classes. -/
  move : T.Register → T.Register → Option T.Inst
  /-- Zero, for a leaf that is undefined. -/
  clear : T.Register → Select T Unit

namespace Copies

variable (C : Copies T)

/-- One copy. -/
def emitCopy : Copy T.Register → Select T Unit
  | (dst, some src) =>
    match C.move dst src with
    | some inst => emit inst
    | none => throw "register copy between incompatible classes"
  | (dst, none) => C.clear dst

/-- The scratch register for the first destination is that destination. -/
def ScratchClash (pending : List (Copy T.Register)) (next : Nat) : Prop :=
  ∃ copy ∈ pending.head?, C.scratch copy.1 next = copy.1

instance (pending : List (Copy T.Register)) (next : Nat) : Decidable (C.ScratchClash pending next) :=
  match pending with
  | [] => isFalse (fun ⟨_, h, _⟩ => nomatch h)
  | copy :: _ => decidable_of_iff (C.scratch copy.1 next = copy.1)
      ⟨fun h => ⟨copy, rfl, h⟩, fun ⟨_, hcopy, h⟩ => Option.some.inj hcopy ▸ h⟩

/-- What each round makes smaller: the copies that are left, whether one must be
    saved first, and whether saving it is of no use. -/
def rounds (pending : List (Copy T.Register)) (next : Nat) : Nat × Nat × Nat :=
  (pending.length, if (pending.find? (unread pending)).isSome = true then 0 else 1,
    if C.ScratchClash pending next then 1 else 0)

/-- A round that saves a destination gets closer to the end. -/
theorem saved_lt (first : Copy T.Register) (rest : List (Copy T.Register)) (next : Nat)
    (hnone : (first :: rest).find? (unread (first :: rest)) = none) :
    Prod.Lex (· < ·) (Prod.Lex (· < ·) (· < ·))
      (C.rounds (redirect first.1 (C.scratch first.1 next) (first :: rest)) (next + 1))
      (C.rounds (first :: rest) next) := by
  have hbefore : ((first :: rest).find? (unread (first :: rest))).isSome = false := by rw [hnone]; rfl
  by_cases hclash : C.scratch first.1 next = first.1
  · -- Nothing changes but the number of the next register.
    have hsame : redirect first.1 (C.scratch first.1 next) (first :: rest) = first :: rest := by
      rw [hclash, redirect_self]
    have hnow : C.ScratchClash (first :: rest) next := ⟨first, rfl, hclash⟩
    have hthen : ¬C.ScratchClash (first :: rest) (next + 1) := by
      rintro ⟨copy, hcopy, h⟩
      cases hcopy
      exact C.scratch_ne first.1 next (hclash.trans h.symm)
    rw [hsame, rounds, rounds, if_pos hnow, if_neg hthen]
    exact Prod.Lex.right _ (Prod.Lex.right _ Nat.one_pos)
  · have hmem : first.1 ∈ (first :: rest).map Prod.fst := List.mem_cons_self
    have hafter := find?_redirect_isSome hclash hmem
    rw [rounds, rounds, length_redirect, if_pos hafter, hbefore]
    exact Prod.Lex.right _ (Prod.Lex.left _ _ Nat.one_pos)

/-- The loop of `emit_block_arg_copies`: a copy whose destination is not read goes
    first; where there is none, a destination is saved. -/
def emitCopies (pending : List (Copy T.Register)) (sel : Selection T) :
    Except String (Unit × Selection T) :=
  match pending with
  | [] => .ok ((), sel)
  | first :: rest =>
    match _hfind : (first :: rest).find? (unread (first :: rest)) with
    | some copy =>
      match C.emitCopy copy sel with
      | .error e => .error e
      | .ok (_, sel') => emitCopies ((first :: rest).eraseP (unread (first :: rest))) sel'
    | none =>
      match C.move (C.scratch first.1 sel.next) first.1 with
      | none => .error "register copy between incompatible classes"
      | some inst =>
        emitCopies (redirect first.1 (C.scratch first.1 sel.next) (first :: rest))
          ⟨sel.next + 1, sel.code ++ [inst]⟩
termination_by C.rounds pending sel.next
decreasing_by
  · exact Prod.Lex.left _ _ (length_eraseP_unread _hfind)
  · exact C.saved_lt first rest sel.next _hfind

end Copies

namespace Lowering

/-- `emit_block_arg_copies`. -/
def emitBlockArgCopies (L : Lowering T) (C : Copies T)
    (values : Value → Option (LoweredValue T.Register)) (destArgs args : List Value) :
    Select T Unit := do
  if destArgs.length ≠ args.length then
    throw "branch operand count does not match target block argument count"
  else
    let pending ← L.pendingCopies values (args.zip destArgs)
    C.emitCopies pending

end Lowering

end Crabbit.Isel
