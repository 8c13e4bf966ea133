/-
  Crabbit.Aarch64.Lowering

  What the AArch64 lowering does in its own way
  (`passes/aarch64/llvm_to_aarch64_isel.rs` and `passes/aarch64/isel_i128.rs`):
  its scalars, its layouts, the extension of a register to a pair, and shifts of
  pairs by a register.
-/

import Crabbit.Aarch64.FoldBinary
import Crabbit.Aarch64.StackLayout
import Crabbit.Aarch64.WordMachine
import Crabbit.Isel.I128Sound

namespace Crabbit.Aarch64

open Crabbit.Isel
open Crabbit.Llvm (IntBinOp Ty evalBin)

/-- `is_stack_scalar_ty`. -/
def isStackScalarTy : Ty → Bool
  | .int _ _ | .pointer | .fp32 | .fp64 => true
  | _ => false

/-- The types of `aggregate_field_layout`. -/
def aggregateFieldTys (ty : Ty) : Option (List Ty) :=
  (aggregateFieldLayout ty).map (·.map Prod.snd)

/-- The layout of a struct lists its fields. -/
theorem fieldsLayout_tys {fields : List Ty} {offset : Nat} {layout : List (Nat × Ty)}
    (h : fieldsLayout fields offset = some layout) : layout.map Prod.snd = fields := by
  induction fields generalizing offset layout with
  | nil =>
    cases h
    rfl
  | cons field fields ih =>
    obtain ⟨size, -, h⟩ := Option.bind_eq_some_iff.mp h
    split at h
    · obtain ⟨rest, hrest, rfl⟩ := Option.map_eq_some_iff.mp h
      rw [List.map_cons, ih hrest]
    · obtain ⟨align, -, h⟩ := Option.bind_eq_some_iff.mp h
      obtain ⟨rest, hrest, rfl⟩ := Option.map_eq_some_iff.mp h
      rw [List.map_cons, ih hrest]

theorem aggregateFieldTys_smaller {ty : Ty} {tys : List Ty} {t : Ty}
    (h : aggregateFieldTys ty = some tys) (ht : t ∈ tys) : sizeOf t < sizeOf ty := by
  obtain ⟨layout, hlayout, rfl⟩ := Option.map_eq_some_iff.mp h
  cases ty with
  | array elem len =>
    obtain ⟨size, -, hlayout⟩ := Option.bind_eq_some_iff.mp hlayout
    have ht' : t = elem := by
      split at hlayout
      · cases hlayout
        exact absurd ht List.not_mem_nil
      · obtain ⟨align, -, rfl⟩ := Option.map_eq_some_iff.mp hlayout
        obtain ⟨field, hfield, rfl⟩ := List.mem_map.mp ht
        obtain ⟨index, -, rfl⟩ := List.mem_map.mp hfield
        rfl
    subst ht'
    simp only [Ty.array.sizeOf_spec]
    omega
  | struct fields =>
    rw [fieldsLayout_tys hlayout] at ht
    have hlt := List.sizeOf_lt_of_mem ht
    simp only [Ty.struct.sizeOf_spec]
    omega
  | unit | void =>
    cases hlayout
    exact absurd ht List.not_mem_nil
  | _ => cases hlayout

/-- `sign_extend_high_half`. -/
def signExtendHighHalf (lo : Register) : Select target Register := do
  let sign ← emitConstant (T := target) 63
  let hi ← freshVreg (T := target)
  signMultiply (T := target) lo hi sign

/-- The lowering of values. -/
def lowering : Lowering target where
  isStackScalar := isStackScalarTy
  fieldTys := aggregateFieldTys
  fieldTys_smaller := aggregateFieldTys_smaller
  signExtendHighHalf
  divisionHint := " (lower to the __divti3-family libcalls before isel)"

theorem signExtends : lowering.SignExtends machine := by
  intro start facts compared r x hr
  refine yields_emitConstant.bind fun sign => yields_freshVreg.bind fun hi => ?_
  refine (yields_signMultiply trivial trivial).weaken fun d sel h => ?_
  exact h.forget (List.cons_subset_cons _ (List.subset_cons_self _ _))

/-! ## Operations on pairs -/

/-- `lower_binary_128`. -/
def lowerBinary128 (kind : IntBinOp) (lhs rhs : LoweredValue Register) (resultTy : Ty) :
    Select target (LoweredValue Register) :=
  lowering.lowerBinary128 foldBinary (some lowerDynamicShift128) kind lhs rhs resultTy

theorem supports : Supports machine (some lowerDynamicShift128) where
  words _ _ := trivial
  dynamic _ h := ⟨(Option.some.inj h).symm, trivial⟩

/-- The folder evaluates the operation on 128 bits, where it has a result. -/
theorem foldBinary_wide {op : IntBinOp} {lhs rhs z : Nat} {ty : Ty}
    (hty : Isel.is128BitInteger ty = true)
    (hop : isDivision op = false) (h : evalBin op 128 lhs rhs = some z) :
    foldBinary op lhs rhs ty = some z := by
  have hwidth : foldWidth ty = 128 := by
    cases ty with
    | int width sign =>
      have heq : width = 128 := of_decide_eq_true hty
      rw [foldWidth, heq, Nat.min_self]
    | _ => cases hty
  have hamount : ∀ {n : Nat}, n < 128 → n % 2 ^ 32 % 128 = n := fun h => by
    rw [Nat.mod_eq_of_lt (by omega : _ < 2 ^ 32), Nat.mod_eq_of_lt h]
  rw [foldBinary, if_pos hwidth]
  cases op with
  | add | sub | mul | and | or | xor => exact h
  | shl | lshr | ashr =>
    obtain ⟨hlt, hz⟩ := Option.ite_none_right_eq_some.mp h
    rw [wrappingOp, hamount hlt]
    exact hz
  | sdiv | udiv | srem | urem => cases hop

end Crabbit.Aarch64
