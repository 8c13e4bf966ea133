/-
  Crabbit.X86.Lowering

  What the x86-64 lowering does in its own way
  (`passes/x86_64_darwin/llvm_to_x86_64_isel.rs`): its scalars, its layouts and
  the extension of a register to a pair.  It has no shifts of pairs by a
  register and no arithmetic shifts.
-/

import Crabbit.Aarch64.FoldBinary
import Crabbit.Isel.I128Sound
import Crabbit.X86.WordMachine

namespace Crabbit.X86

open Crabbit.Isel
open Crabbit.Llvm (IntBinOp Ty)

/-- `is_stack_scalar_ty`. -/
def isStackScalarTy : Ty → Bool
  | .int _ _ | .pointer => true
  | _ => false

/-- The types of `aggregate_field_layout`. -/
def aggregateFieldTys (ty : Ty) : Option (List Ty) :=
  (aggregateFieldLayout ty).map (·.map Prod.snd)

/-- The layout of a struct lists its fields. -/
theorem fieldsLayout_tys {fields : List Ty} {offset : Nat} {layout : List (Nat × Ty)}
    (h : fieldsLayout fields offset = some layout) : layout.map Prod.snd = fields := by
  induction fields generalizing offset layout with
  | nil =>
    cases h
    rfl
  | cons field fields ih =>
    obtain ⟨size, -, h⟩ := Option.bind_eq_some_iff.mp h
    split at h
    · obtain ⟨rest, hrest, rfl⟩ := Option.map_eq_some_iff.mp h
      rw [List.map_cons, ih hrest]
    · obtain ⟨align, -, h⟩ := Option.bind_eq_some_iff.mp h
      obtain ⟨rest, hrest, rfl⟩ := Option.map_eq_some_iff.mp h
      rw [List.map_cons, ih hrest]

theorem aggregateFieldTys_smaller {ty : Ty} {tys : List Ty} {t : Ty}
    (h : aggregateFieldTys ty = some tys) (ht : t ∈ tys) : sizeOf t < sizeOf ty := by
  obtain ⟨layout, hlayout, rfl⟩ := Option.map_eq_some_iff.mp h
  cases ty with
  | array elem len =>
    obtain ⟨size, -, hlayout⟩ := Option.bind_eq_some_iff.mp hlayout
    have ht' : t = elem := by
      split at hlayout
      · cases hlayout
        exact absurd ht List.not_mem_nil
      · obtain ⟨align, -, rfl⟩ := Option.map_eq_some_iff.mp hlayout
        obtain ⟨field, hfield, rfl⟩ := List.mem_map.mp ht
        obtain ⟨index, -, rfl⟩ := List.mem_map.mp hfield
        rfl
    subst ht'
    simp only [Ty.array.sizeOf_spec]
    omega
  | struct fields =>
    rw [fieldsLayout_tys hlayout] at ht
    have hlt := List.sizeOf_lt_of_mem ht
    simp only [Ty.struct.sizeOf_spec]
    omega
  | unit | void =>
    cases hlayout
    exact absurd ht List.not_mem_nil
  | _ => cases hlayout

/-- The signed case of `materialize_pair` of a register: the high half is
    allocated first. -/
def signExtendHighHalf (lo : Register) : Select target Register := do
  let hi ← freshVreg (T := target)
  let sign ← emitConstant (T := target) 63
  signMultiply (T := target) lo hi sign

/-- The lowering of values. -/
def lowering : Lowering target where
  isStackScalar := isStackScalarTy
  fieldTys := aggregateFieldTys
  fieldTys_smaller := aggregateFieldTys_smaller
  signExtendHighHalf
  divisionHint := ""

theorem signExtends : lowering.SignExtends machine := by
  intro start facts compared r x hr
  refine yields_freshVreg.bind fun hi => yields_emitConstant.bind fun sign => ?_
  refine (yields_signMultiply (fun h => nomatch h) (fun h => nomatch h)).weaken fun d sel h => ?_
  exact h.forget (List.cons_subset_cons _ (List.subset_cons_self _ _))

/-! ## Operations on pairs -/

/-- `BinaryKind`; a shift to the right is logical. -/
inductive BinaryKind where
  | add | sub | mul | sdiv | udiv | srem | urem | and | or | xor | shl | shr
  deriving DecidableEq

/-- The operation a kind comes from. -/
def BinaryKind.op : BinaryKind → IntBinOp
  | .add => .add
  | .sub => .sub
  | .mul => .mul
  | .sdiv => .sdiv
  | .udiv => .udiv
  | .srem => .srem
  | .urem => .urem
  | .and => .and
  | .or => .or
  | .xor => .xor
  | .shl => .shl
  | .shr => .lshr

/-- `lower_binary_128`; `fold_binary` is that of the other lowering. -/
def lowerBinary128 (kind : BinaryKind) (lhs rhs : LoweredValue Register) (resultTy : Ty) :
    Select target (LoweredValue Register) :=
  lowering.lowerBinary128 Aarch64.foldBinary none kind.op lhs rhs resultTy

theorem BinaryKind.op_ne_ashr (kind : BinaryKind) : kind.op ≠ .ashr := by
  cases kind <;> decide

theorem supports : Supports machine none where
  words _ hop := hop
  dynamic _ h := nomatch h

end Crabbit.X86
