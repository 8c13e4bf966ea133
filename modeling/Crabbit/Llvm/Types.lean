/-
  Crabbit.Llvm.Types

  The value types of the LLVM dialect that the back ends and the memory
  passes look at.
-/

import Mathlib.Data.Nat.Notation

namespace Crabbit.Llvm

inductive Signedness where
  | signed | unsigned | signless
  deriving DecidableEq

/-- A type handle.  `vector` stands for the fixed vectors; an opaque struct
    has no field list. -/
inductive Ty where
  | int (width : Nat) (sign : Signedness)
  | pointer
  | fp32
  | fp64
  | void
  | unit
  | array (elem : Ty) (size : Nat)
  | struct (fields : List Ty)
  | opaqueStruct
  | vector (elem : Ty) (numElems : Nat)

namespace Ty

/-- A signless integer. -/
abbrev i (width : Nat) : Ty := .int width .signless

/-! ## Decidable equality

The derive handler does not cover the nested `struct` case. -/

mutual

def beq : Ty → Ty → Bool
  | .int w s, .int w' s' => decide (w = w') && decide (s = s')
  | .pointer, .pointer => true
  | .fp32, .fp32 => true
  | .fp64, .fp64 => true
  | .void, .void => true
  | .unit, .unit => true
  | .array e n, .array e' n' => beq e e' && decide (n = n')
  | .struct fs, .struct fs' => beqList fs fs'
  | .opaqueStruct, .opaqueStruct => true
  | .vector e n, .vector e' n' => beq e e' && decide (n = n')
  | _, _ => false

def beqList : List Ty → List Ty → Bool
  | [], [] => true
  | a :: as, b :: bs => beq a b && beqList as bs
  | _, _ => false

end

mutual

theorem eq_of_beq : ∀ a b : Ty, beq a b = true → a = b
  | .int _ _, b, h => by
    cases b <;> simp_all [beq]
  | .pointer, b, h => by cases b <;> simp_all [beq]
  | .fp32, b, h => by cases b <;> simp_all [beq]
  | .fp64, b, h => by cases b <;> simp_all [beq]
  | .void, b, h => by cases b <;> simp_all [beq]
  | .unit, b, h => by cases b <;> simp_all [beq]
  | .array e n, b, h => by
    cases b <;> simp only [beq, Bool.and_eq_true, decide_eq_true_eq, Bool.false_eq_true] at h
    rw [eq_of_beq e _ h.1, h.2]
  | .struct fs, b, h => by
    cases b <;> simp only [beq, Bool.false_eq_true] at h
    rw [eq_of_beqList fs _ h]
  | .opaqueStruct, b, h => by cases b <;> simp_all [beq]
  | .vector e n, b, h => by
    cases b <;> simp only [beq, Bool.and_eq_true, decide_eq_true_eq, Bool.false_eq_true] at h
    rw [eq_of_beq e _ h.1, h.2]

theorem eq_of_beqList : ∀ as bs : List Ty, beqList as bs = true → as = bs
  | [], [], _ => rfl
  | a :: as, b :: bs, h => by
    simp only [beqList, Bool.and_eq_true] at h
    rw [eq_of_beq a b h.1, eq_of_beqList as bs h.2]
  | [], _ :: _, h => by simp [beqList] at h
  | _ :: _, [], h => by simp [beqList] at h

end

mutual

theorem beq_self : ∀ a : Ty, beq a a = true
  | .int _ _ => by simp [beq]
  | .pointer => rfl
  | .fp32 => rfl
  | .fp64 => rfl
  | .void => rfl
  | .unit => rfl
  | .array e _ => by simp [beq, beq_self e]
  | .struct fs => by simp [beq, beqList_self fs]
  | .opaqueStruct => rfl
  | .vector e _ => by simp [beq, beq_self e]

theorem beqList_self : ∀ as : List Ty, beqList as as = true
  | [] => rfl
  | a :: as => by simp [beqList, beq_self a, beqList_self as]

end

instance : DecidableEq Ty := fun a b =>
  decidable_of_iff (beq a b = true) ⟨eq_of_beq a b, fun h => h ▸ beq_self a⟩

end Ty

end Crabbit.Llvm
