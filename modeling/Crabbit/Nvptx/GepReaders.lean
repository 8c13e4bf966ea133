/-
  Crabbit.Nvptx.GepReaders

  The readers of `llvm.getelementptr`: the lowerings to AArch64 and x86-64, the
  address folding of the GPU back end, and scalar replacement of aggregates
  (`passes/llvm/sroa.rs`).

  A reader that adds at each index what LLVM adds has LLVM's displacement, and
  it is the only one to have it for each beginning of the index list.  The GPU
  also splits integer operations, which is right where those it splits do not
  wrap.
-/

import Crabbit.Llvm.GepMeaning
import Crabbit.Nvptx.AddrFoldSound
import Crabbit.X86.LowerGep

namespace Crabbit.Nvptx

open Crabbit.Llvm (Value Ty GepIndex GepReading gepReading gepDisplacement)
open Crabbit.Aarch64 (MemoryLayout)

/-! ## Readers -/

/-- `constant_byte_offset`: the offset of a gep over bytes with one constant
    index. -/
def constantByteOffset (k : Kernel) (srcElemTy : Ty) (indices : List GepIndex) : Option Nat :=
  match srcElemTy, indices with
  | .int 8 _, [.constant value] => some value
  | .int 8 _, [.value operand] => (constOf k operand).map fun c => c.1 % 2 ^ 64
  | _, _ => none

inductive GepReader where
  | aarch64 | x86_64 | gpu | sroa
  deriving DecidableEq

/-- The operands of an operation. -/
structure GepSite where
  result : Value
  base : Value
  srcElemTy : Ty
  indices : List GepIndex

def GepSite.inst (g : GepSite) : Inst := .gep g.result g.base g.srcElemTy g.indices

/-- The operation with the first indices only. -/
def GepSite.take (g : GepSite) (n : Nat) : GepSite := { g with indices := g.indices.take n }

/-- What the folder has when it comes to the operation that defines a value. -/
def plansBefore (k : Kernel) (spaces : Value → Option PtrSpace) (result : Value) : AddrPlans :=
  (k.insts.takeWhile fun inst => result ∉ inst.results).foldl (planInst k spaces)
    ⟨fun _ => none, fun _ => none⟩

/-- The base of an operation as the folder has it. -/
def GepSite.start (g : GepSite) (k : Kernel) (spaces : Value → Option PtrSpace) : FoldedAddr :=
  baseAddr k spaces (plansBefore k spaces g.result).plans g.base

/-- The displacement from the base a reader computes; none where it does not
    accept the operation.  `reg` is what the registers of the native code
    hold. -/
def displacement (k : Kernel) (spaces : Value → Option PtrSpace) (env : Env)
    (reg : Value → BitVec 64) (g : GepSite) : GepReader → Option (BitVec 64)
  | .aarch64 => (Aarch64.lowerGep g.indices g.srcElemTy).map fun a => a.displacement reg
  | .x86_64 => (X86.lowerGep g.indices g.srcElemTy).map fun a => a.displacement reg
  | .gpu => (foldGep k spaces (plansBefore k spaces g.result) g.result g.base g.srcElemTy
      g.indices).1.map fun addr => addr.value env - (g.start k spaces).value env
  | .sroa => (constantByteOffset k g.srcElemTy g.indices).map fun offset => BitVec.ofNat 64 offset

/-! ## What a reader adds -/

/-- The reading of `emit_gep`, which the folder mirrors. -/
def gpuReading (bits : Value → Nat) : GepReading where
  count index := some (indexBits bits index)
  stride := strideOf
  name := fieldIndex bits
  field fields index := structFieldOffset fields index 0

/-- A constant index has the sign bit clear, or is as wide as an address. -/
def ConstantsNonneg (k : Kernel) (indices : List GepIndex) : Prop :=
  ∀ v ∈ indices.flatMap GepIndex.operands, ∀ imm width, constOf k v = some (imm, width) →
    64 ≤ width ∨ imm < 2 ^ (width - 1)

/-- At each index the element size or the field offset of the reader makes what
    LLVM's makes of it.  Scalar replacement only has constants to read. -/
def StepsAgree (k : Kernel) (env : Env) (reg : Value → BitVec 64) (g : GepSite) :
    GepReader → Prop
  | .aarch64 => Aarch64.memoryLayout.gepAmounts reg g.srcElemTy g.indices =
      (gepReading env.bits).amounts g.srcElemTy g.indices
  | .x86_64 => X86.memoryLayout.gepAmounts reg g.srcElemTy g.indices =
      (gepReading env.bits).amounts g.srcElemTy g.indices
  | .gpu => (gpuReading env.bits).amounts g.srcElemTy g.indices =
      (gepReading env.bits).amounts g.srcElemTy g.indices
  | .sroa => ConstantsNonneg k g.indices

/-- No addition, multiplication or shift of 32 bits wraps that the GPU splits
    to fold the operation. -/
def SplitsFit (k : Kernel) (spaces : Value → Option PtrSpace) (env : Env) (g : GepSite)
    (r : GepReader) : Prop :=
  r = .gpu → indicesFit k env.bits g.srcElemTy g.indices
    ⟨⟨(g.start k spaces).terms, (plansBefore k spaces g.result).memo⟩, (g.start k spaces).offset⟩

/-- The reader has LLVM's displacement of the operation with as many of its
    indices as one likes, where it accepts that. -/
def AgreesThroughout (k : Kernel) (spaces : Value → Option PtrSpace) (env : Env)
    (reg : Value → BitVec 64) (g : GepSite) (r : GepReader) : Prop :=
  ∀ n d offset, displacement k spaces env reg (g.take n) r = some d →
    gepDisplacement env.bits g.srcElemTy (g.indices.take n) = some offset → d = offset

/-! ## Sums -/

/-- Lists are determined by the sums of their beginnings. -/
theorem eq_of_sum_take {a b : List (BitVec 64)} (hlength : a.length = b.length)
    (h : ∀ n, (a.take n).sum = (b.take n).sum) : a = b := by
  induction a generalizing b with
  | nil => exact (List.eq_nil_of_length_eq_zero hlength.symm).symm
  | cons x a ih =>
      cases b with
      | nil => cases hlength
      | cons y b =>
          have hhead : x = y := by
            simpa only [List.take_succ_cons, List.take_zero, List.sum_cons, List.sum_nil,
              add_zero] using h 1
          subst hhead
          refine congrArg (x :: ·) (ih (Nat.succ.inj hlength) fun n => ?_)
          have hnext := h (n + 1)
          rw [List.take_succ_cons, List.take_succ_cons, List.sum_cons, List.sum_cons] at hnext
          exact add_left_cancel hnext

/-- Two walks that fail together have the same sums exactly where they have
    the same parts, when the sums are compared for each beginning. -/
theorem take_sums_iff {walk walk' : List GepIndex → Option (List (BitVec 64))}
    {indices : List GepIndex} {parts parts' : List (BitVec 64)}
    (hwalk : ∀ n, walk (indices.take n) = some (parts.take n) ∧ parts.length = indices.length)
    (hwalk' : ∀ n, walk' (indices.take n) = some (parts'.take n) ∧
      parts'.length = indices.length) :
    (∀ n d offset, (walk (indices.take n)).map List.sum = some d →
      (walk' (indices.take n)).map List.sum = some offset → d = offset) ↔ parts = parts' := by
  constructor
  · intro h
    refine eq_of_sum_take ((hwalk 0).2.trans (hwalk' 0).2.symm) fun n => ?_
    exact h n _ _ (by rw [(hwalk n).1]; rfl) (by rw [(hwalk' n).1]; rfl)
  · rintro rfl n d offset hd hoffset
    rw [(hwalk n).1] at hd
    rw [(hwalk' n).1] at hoffset
    exact Option.some.inj (hd.symm.trans hoffset)

/-! ## Native code -/

/-- **Native lowering.** Its displacements are LLVM's throughout an operation
    if and only if its steps are. -/
theorem native_throughout_iff {layout : MemoryLayout} {bits : Value → Nat}
    {reg : Value → BitVec 64} {ty : Ty} {indices : List GepIndex} {d : BitVec 64}
    {steps : List (BitVec 64)} (hd : (layout.lowerGep indices ty).map (·.displacement reg) = some d)
    (hsteps : (gepReading bits).amounts ty indices = some steps) :
    (∀ n d offset, (layout.lowerGep (indices.take n) ty).map (·.displacement reg) = some d →
      gepDisplacement bits ty (indices.take n) = some offset → d = offset) ↔
    layout.gepAmounts reg ty indices = (gepReading bits).amounts ty indices := by
  obtain ⟨amounts, hamounts, -⟩ :=
    Option.map_eq_some_iff.mp ((MemoryLayout.lowerGep_displacement indices ty).symm.trans hd)
  simp only [MemoryLayout.lowerGep_displacement, gepDisplacement]
  rw [hamounts, hsteps, Option.some.injEq]
  exact @take_sums_iff (layout.gepAmounts reg ty) ((gepReading bits).amounts ty) _ _ _
    (fun n => MemoryLayout.gepAmounts_take hamounts n) (fun n => GepReading.amounts_take hsteps n)

/-! ## The GPU -/

theorem gpuReading_step (bits : Value → Nat) (index : GepIndex) (elem : Ty) :
    (gpuReading bits).step index elem =
      (strideOf elem).map fun stride => indexBits bits index * BitVec.ofNat 64 stride := rfl

theorem gepDescend_eq (bits : Value → Nat) (ty : Ty) (indices : List GepIndex) :
    gepDescend bits ty indices = ((gpuReading bits).descend ty indices).map List.sum := by
  induction indices generalizing ty with
  | nil => cases ty <;> rfl
  | cons index rest ih =>
      have hcons : ∀ (amounts : Option (List (BitVec 64))) (amount : BitVec 64),
          ((amounts.map List.sum).map fun offset => amount + offset) =
            (amounts.map (amount :: ·)).map List.sum := by
        intro amounts amount
        cases amounts <;> rfl
      cases ty
      case array elem len =>
        simp only [gepDescend, GepReading.descend, gpuReading_step]
        cases strideOf elem with
        | none => rfl
        | some stride =>
            simp only [Option.bind_some, Option.map_some]
            rw [ih elem]
            exact hcons _ _
      case struct fields =>
        simp only [gepDescend, GepReading.descend]
        have hfield : (gpuReading bits).field fields ((gpuReading bits).name index) =
          structFieldOffset fields (fieldIndex bits index) 0 := rfl
        rw [hfield]
        cases structFieldOffset fields (fieldIndex bits index) 0 with
        | none => rfl
        | some found =>
            simp only [Option.bind_some]
            rw [ih found.2]
            exact hcons _ _
      all_goals rfl

/-- The offset of `emit_gep` is the sum of what its reading adds. -/
theorem gepOffset_eq (bits : Value → Nat) (ty : Ty) (indices : List GepIndex) :
    gepOffset bits ty indices = ((gpuReading bits).amounts ty indices).map List.sum := by
  cases indices with
  | nil => rfl
  | cons index rest =>
      simp only [gepOffset, GepReading.amounts, gpuReading_step]
      cases strideOf ty with
      | none => rfl
      | some stride =>
          simp only [Option.bind_some, Option.map_some]
          rw [gepDescend_eq]
          cases (gpuReading bits).descend ty rest <;> rfl

/-- An operation that defines another value leaves the plan of a value. -/
theorem foldl_planInst_plans (k : Kernel) (spaces : Value → Option PtrSpace) {v : Value}
    (insts : List Inst) (h : ∀ inst ∈ insts, v ∉ inst.results) (p : AddrPlans) :
    (insts.foldl (planInst k spaces) p).plans v = p.plans v := by
  induction insts generalizing p with
  | nil => rfl
  | cons inst insts ih =>
      rw [List.foldl_cons, ih fun i hi => h i (List.mem_cons_of_mem _ hi)]
      have hinst := h inst List.mem_cons_self
      cases inst
      case gep result base ty indices =>
        have hne : v ≠ result := fun heq => hinst (heq ▸ List.mem_cons_self)
        cases hplan : (foldGep k spaces p result base ty indices).1 with
        | some plan =>
            simp only [planInst, hplan]
            exact Function.update_of_ne hne _ _
        | none => simp only [planInst, hplan]
      all_goals rfl

/-- The plan of an operation is what the folder makes of it. -/
theorem planAddresses_plan {k : Kernel} (hssa : k.region.Ssa) (spaces : Value → Option PtrSpace)
    {g : GepSite} (hinst : g.inst ∈ k.insts) :
    (planAddresses k spaces).plans g.result = (foldGep k spaces
      (plansBefore k spaces g.result) g.result g.base g.srcElemTy g.indices).1 := by
  obtain ⟨-, before, behind, hinsts, hbefore⟩ :=
    List.find?_eq_some_iff_append.mp (definingOp_of_mem hssa hinst (v := g.result)
      List.mem_cons_self)
  have hbefore : ∀ inst ∈ before, g.result ∉ inst.results := by simpa using hbefore
  have hbehind : ∀ inst ∈ behind, g.result ∉ inst.results := by
    have hnodup := Kernel.nodup_results hssa
    rw [hinsts, List.flatMap_append, List.flatMap_cons] at hnodup
    have hdisjoint := (List.nodup_append.mp (List.nodup_append.mp hnodup).2.1).2.2
    exact fun inst hmem hres => hdisjoint g.result List.mem_cons_self g.result
      (List.mem_flatMap.mpr ⟨inst, hmem, hres⟩) rfl
  have hplans : plansBefore k spaces g.result =
      before.foldl (planInst k spaces) ⟨fun _ => none, fun _ => none⟩ := by
    rw [plansBefore, hinsts, List.takeWhile_append_of_pos (by simpa using hbefore),
      List.takeWhile_cons_of_neg (by simp [GepSite.inst, Inst.results]), List.append_nil]
  rw [planAddresses, hinsts, List.foldl_append, List.foldl_cons, ← hplans,
    foldl_planInst_plans k spaces behind hbehind]
  have hnone : (plansBefore k spaces g.result).plans g.result = none := by
    rw [hplans, foldl_planInst_plans k spaces before hbefore]
  cases hplan : (foldGep k spaces (plansBefore k spaces g.result) g.result g.base g.srcElemTy
      g.indices).1 with
  | some plan =>
      simp only [GepSite.inst, planInst, hplan]
      exact Function.update_self _ _ _
  | none =>
      simp only [GepSite.inst, planInst, hplan]
      exact hnone

/-- **Address folding.** The displacement is what the reading adds up to. -/
theorem foldGep_displacement {k : Kernel} {thread : Thread} {V : View k thread}
    (hssa : k.region.Ssa) (htyped : k.Typed) (spaces : Value → Option PtrSpace) {g : GepSite}
    (hlive : ∀ v ∈ g.indices.flatMap GepIndex.operands, V.live v)
    (hfits : SplitsFit k spaces V.env g .gpu) {reg : Value → BitVec 64} {d : BitVec 64}
    (hd : displacement k spaces V.env reg g .gpu = some d) {offset : BitVec 64}
    (hoffset : gepOffset V.env.bits g.srcElemTy g.indices = some offset) : d = offset := by
  obtain ⟨addr, haddr, rfl⟩ := Option.map_eq_some_iff.mp hd
  simp only [foldGep] at haddr
  split at haddr
  · rename_i haccepted
    obtain rfl := Option.some.inj haddr
    have hsum := (foldIndices_sound (V := V) hssa htyped g.indices g.srcElemTy _).sum
      (hfits rfl) hlive haccepted.1 offset hoffset
    simp only [Folder.sum, GepSite.start] at hsum
    simp only [FoldedAddr.value, termSum_mergeTerms, GepSite.start]
    rw [BitVec.add_assoc, hsum]
    ring
  · cases haddr

theorem andThen_done {r : Bool × Folder} {f : Folder → Bool × Folder}
    (h : (andThen r f).1 = true) : r.1 = true ∧ (f r.2).1 = true := by
  unfold andThen at h
  split at h
  · rename_i hdone
    exact ⟨hdone, h⟩
  · rename_i hdone
    exact absurd h hdone

/-- Where folding goes through, the type has what the indices name. -/
theorem gepDescend_isSome {k : Kernel} {thread : Thread} {V : View k thread}
    (indices : List GepIndex) {ty : Ty} {s : Folder}
    (hlive : ∀ v ∈ indices.flatMap GepIndex.operands, V.live v)
    (h : (foldDescend k ty indices s).1 = true) : (gepDescend V.env.bits ty indices).isSome := by
  induction indices generalizing ty s with
  | nil => cases ty <;> rfl
  | cons index rest ih =>
      rw [List.flatMap_cons] at hlive
      have hrest : ∀ v ∈ rest.flatMap GepIndex.operands, V.live v := fun v hv =>
        hlive v (List.mem_append_right _ hv)
      cases ty
      case array elem len =>
        simp only [foldDescend] at h
        cases hstride : strideOf elem with
        | none => rw [hstride] at h; cases h
        | some stride =>
            rw [hstride] at h
            rw [gepDescend, hstride, Option.bind_some, Option.isSome_map]
            exact ih hrest (andThen_done h).2
      case struct fields =>
        simp only [foldDescend] at h
        cases hfield : (fieldOf k index).bind fun field => structFieldOffset fields field 0 with
        | none => rw [hfield] at h; cases h
        | some found =>
            rw [hfield] at h
            obtain ⟨field, hindex, hoffset⟩ := Option.bind_eq_some_iff.mp hfield
            rw [gepDescend, fieldOf_eq (fun v hv => hlive v (List.mem_append_left _ hv)) hindex,
              hoffset, Option.bind_some, Option.isSome_map]
            exact ih hrest h
      all_goals cases h

theorem gepOffset_isSome {k : Kernel} {thread : Thread} {V : View k thread}
    {indices : List GepIndex} {ty : Ty} {s : Folder}
    (hlive : ∀ v ∈ indices.flatMap GepIndex.operands, V.live v)
    (h : (foldIndices k ty indices s).1 = true) : (gepOffset V.env.bits ty indices).isSome := by
  cases indices with
  | nil => rfl
  | cons index rest =>
      rw [List.flatMap_cons] at hlive
      simp only [foldIndices] at h
      cases hstride : strideOf ty with
      | none => rw [hstride] at h; cases h
      | some stride =>
          rw [hstride] at h
          rw [gepOffset, hstride, Option.bind_some, Option.isSome_map]
          exact gepDescend_isSome rest (fun v hv => hlive v (List.mem_append_right _ hv))
            (andThen_done h).2

/-- What folding accepts has amounts. -/
theorem exists_gpuAmounts {k : Kernel} {thread : Thread} {V : View k thread}
    {spaces : Value → Option PtrSpace} {reg : Value → BitVec 64} {g : GepSite}
    (hlive : ∀ v ∈ g.indices.flatMap GepIndex.operands, V.live v)
    (h : (displacement k spaces V.env reg g .gpu).isSome) :
    ∃ amounts, (gpuReading V.env.bits).amounts g.srcElemTy g.indices = some amounts := by
  rw [displacement, Option.isSome_map] at h
  obtain ⟨addr, haddr⟩ := Option.isSome_iff_exists.mp h
  simp only [foldGep] at haddr
  split at haddr
  · rename_i haccepted
    have hsome := gepOffset_isSome (V := V) hlive haccepted.1
    rw [gepOffset_eq, Option.isSome_map] at hsome
    exact Option.isSome_iff_exists.mp hsome
  · cases haddr

/-- What is split for the first indices is split for all. -/
theorem descendFits_take {k : Kernel} {bits : Value → Nat} (indices : List GepIndex) {ty : Ty}
    {s : Folder} (n : Nat) (h : descendFits k bits ty indices s) :
    descendFits k bits ty (indices.take n) s := by
  induction indices generalizing ty s n with
  | nil => rwa [List.take_nil]
  | cons index rest ih =>
      cases n with
      | zero => cases ty <;> trivial
      | succ n =>
          rw [List.take_succ_cons]
          cases ty
          case array elem len =>
            simp only [descendFits] at h ⊢
            cases hstride : strideOf elem with
            | none => trivial
            | some stride =>
                rw [hstride] at h
                exact ⟨h.1, fun hdone => ih n (h.2 hdone)⟩
          case struct fields =>
            simp only [descendFits] at h ⊢
            cases hfield : (fieldOf k index).bind fun field => structFieldOffset fields field 0 with
            | none => trivial
            | some found =>
                rw [hfield] at h
                exact ih n h
          all_goals trivial

theorem indicesFit_take {k : Kernel} {bits : Value → Nat} {indices : List GepIndex} {ty : Ty}
    {s : Folder} (n : Nat) (h : indicesFit k bits ty indices s) :
    indicesFit k bits ty (indices.take n) s := by
  cases indices with
  | nil => rwa [List.take_nil]
  | cons index rest =>
      cases n with
      | zero => trivial
      | succ n =>
          rw [List.take_succ_cons]
          simp only [indicesFit] at h ⊢
          cases hstride : strideOf ty with
          | none => trivial
          | some stride =>
              rw [hstride] at h
              exact ⟨h.1, fun hdone => descendFits_take rest n (h.2 hdone)⟩

/-- **Address folding.** Where it goes through for each beginning of the index
    list, its displacements are LLVM's if and only if its steps are. -/
theorem gpu_throughout_iff {k : Kernel} {thread : Thread} {V : View k thread}
    (hssa : k.region.Ssa) (htyped : k.Typed) (spaces : Value → Option PtrSpace) {g : GepSite}
    (hlive : ∀ v ∈ g.indices.flatMap GepIndex.operands, V.live v)
    (hfits : SplitsFit k spaces V.env g .gpu) {reg : Value → BitVec 64} {steps : List (BitVec 64)}
    (haccepts : ∀ n, (displacement k spaces V.env reg (g.take n) .gpu).isSome)
    (hsteps : (gepReading V.env.bits).amounts g.srcElemTy g.indices = some steps) :
    AgreesThroughout k spaces V.env reg g .gpu ↔ StepsAgree k V.env reg g .gpu := by
  have hlive' : ∀ n, ∀ v ∈ (g.indices.take n).flatMap GepIndex.operands, V.live v := by
    intro n v hv
    obtain ⟨index, hindex, hv⟩ := List.mem_flatMap.mp hv
    exact hlive v (List.mem_flatMap.mpr ⟨index, List.mem_of_mem_take hindex, hv⟩)
  obtain ⟨amounts, hamounts⟩ : ∃ amounts,
      (gpuReading V.env.bits).amounts g.srcElemTy g.indices = some amounts := by
    have hwhole := exists_gpuAmounts (V := V) (g := g.take g.indices.length) (hlive' _)
      (haccepts g.indices.length)
    rwa [GepSite.take, List.take_length] at hwhole
  -- For a beginning, too, folding has what the reading adds up to.
  have hfolds : ∀ n, displacement k spaces V.env reg (g.take n) .gpu =
      ((gpuReading V.env.bits).amounts g.srcElemTy (g.indices.take n)).map List.sum := by
    intro n
    obtain ⟨d, hd⟩ := Option.isSome_iff_exists.mp (haccepts n)
    have hoffset : gepOffset V.env.bits g.srcElemTy (g.indices.take n) =
        some (amounts.take n).sum := by
      rw [gepOffset_eq, (GepReading.amounts_take hamounts n).1]
      rfl
    rw [hd, ← gepOffset_eq, hoffset]
    exact congrArg some (foldGep_displacement (g := g.take n) hssa htyped spaces (hlive' n)
      (fun _ => indicesFit_take n (hfits rfl)) hd hoffset)
  unfold AgreesThroughout StepsAgree
  simp only [hfolds, gepDisplacement]
  rw [hamounts, hsteps, Option.some.injEq]
  exact @take_sums_iff ((gpuReading V.env.bits).amounts g.srcElemTy)
    ((gepReading V.env.bits).amounts g.srcElemTy) _ _ _
    (fun n => GepReading.amounts_take hamounts n) (fun n => GepReading.amounts_take hsteps n)

/-! ## Constant offsets -/

theorem sextBits_eq_signExtend (width n : Nat) :
    sextBits width n = (BitVec.ofNat width n).signExtend 64 := by
  unfold sextBits
  split
  · rfl
  · rename_i hwidth
    rw [BitVec.signExtend_eq_setWidth_of_le _ (Nat.not_lt.mp hwidth)]
    apply BitVec.eq_of_toNat_eq
    rw [BitVec.toNat_setWidth, BitVec.toNat_ofNat, BitVec.toNat_ofNat,
      Nat.mod_mod_of_dvd _ (Nat.pow_dvd_pow 2 (Nat.not_lt.mp hwidth))]

/-- A number without its sign is itself where it has none. -/
theorem signExtend_eq_iff {width n : Nat} (hlt : n < 2 ^ width) :
    BitVec.ofNat 64 n = (BitVec.ofNat width n).signExtend 64 ↔
      64 ≤ width ∨ n < 2 ^ (width - 1) := by
  rw [← sextBits_eq_signExtend]
  unfold sextBits
  by_cases hwidth : width < 64
  · rw [if_pos hwidth]
    have hpow : 2 ^ width ≤ 2 ^ 63 := Nat.pow_le_pow_right (by decide) (by omega)
    have hn : (BitVec.ofNat width n).toNat = n := by
      rw [BitVec.toNat_ofNat, Nat.mod_eq_of_lt hlt]
    have hmsb : (BitVec.ofNat width n).msb = decide (2 ^ (width - 1) ≤ n) := by
      rw [BitVec.msb_eq_decide, hn]
    have hofNat : (BitVec.ofNat 64 n).toNat = n := by
      rw [BitVec.toNat_ofNat, Nat.mod_eq_of_lt (by omega)]
    constructor
    · intro heq
      right
      by_contra hge
      -- The sign makes the upper bits ones.
      have hval := congrArg BitVec.toNat heq
      rw [hofNat, BitVec.toNat_signExtend, hmsb, decide_eq_true (by omega), if_pos rfl,
        BitVec.toNat_setWidth, hn, Nat.mod_eq_of_lt (by omega)] at hval
      omega
    · rintro (h | h)
      · omega
      · rw [BitVec.signExtend_eq_setWidth_of_msb_false (by rw [hmsb]; simpa using h)]
        apply BitVec.eq_of_toNat_eq
        rw [hofNat, BitVec.toNat_setWidth, hn, Nat.mod_eq_of_lt (by omega)]
  · rw [if_neg hwidth]
    exact ⟨fun _ => .inl (Nat.not_lt.mp hwidth), fun _ => rfl⟩

/-- LLVM's displacement of one index over bytes. -/
theorem gepDisplacement_byte (bits : Value → Nat) (sign : Llvm.Signedness) (index : GepIndex) :
    gepDisplacement bits (.int 8 sign) [index] = Llvm.indexCount bits index := by
  have hstride : Llvm.allocSize (.int 8 sign) = some 1 := rfl
  simp only [gepDisplacement, GepReading.amounts, GepReading.step, GepReading.descend, gepReading,
    hstride, Option.map_some]
  cases Llvm.indexCount bits index with
  | none => rfl
  | some count =>
      simp only [Option.bind_some, Option.map_some, BitVec.mul_one, BitVec.ofNat_eq_ofNat,
        List.sum_cons, List.sum_nil]
      exact congrArg some (BitVec.add_zero _)

/-- It reads one index. -/
theorem length_of_constantByteOffset {k : Kernel} {ty : Ty} {indices : List GepIndex} {n : Nat}
    (h : constantByteOffset k ty indices = some n) : indices.length = 1 := by
  unfold constantByteOffset at h
  split at h
  · rfl
  · rfl
  · cases h

/-- **Constant offsets.** They are LLVM's exactly for constants without a
    sign. -/
theorem constantByteOffset_iff {k : Kernel} {thread : Thread} {V : View k thread}
    {ty : Ty} {indices : List GepIndex} (hlive : ∀ v ∈ indices.flatMap GepIndex.operands, V.live v)
    {n : Nat} (h : constantByteOffset k ty indices = some n)
    {offset : BitVec 64} (hoffset : gepDisplacement V.env.bits ty indices = some offset) :
    BitVec.ofNat 64 n = offset ↔ ConstantsNonneg k indices := by
  unfold constantByteOffset at h
  split at h
  · rename_i sign value
    rw [gepDisplacement_byte] at hoffset
    obtain rfl := Option.some.inj h
    refine ⟨fun _ v hv => ?_, fun _ => Option.some.inj hoffset⟩
    exact absurd hv List.not_mem_nil
  · rename_i sign operand
    have hmem : operand ∈ [GepIndex.value operand].flatMap GepIndex.operands := List.mem_cons_self
    obtain ⟨⟨imm, width⟩, hconst, rfl⟩ := Option.map_eq_some_iff.mp h
    obtain ⟨hbits, hwidth, hlt⟩ := V.bits_const hconst (hlive operand hmem)
    have hbits : V.env.bits operand = imm := hbits
    have hcount : offset = (BitVec.ofNat width imm).signExtend 64 := by
      rw [gepDisplacement_byte] at hoffset
      cases hty : operand.ty with
      | int w sign =>
          rw [hty] at hwidth
          obtain rfl := Option.some.inj hwidth
          simp only [Llvm.indexCount, hty, Option.some.injEq] at hoffset
          rw [← hbits, hoffset]
      | _ => simp only [Llvm.indexCount, hty, reduceCtorEq] at hoffset
    rw [hcount, ofNat_mod_two_pow, signExtend_eq_iff hlt]
    constructor
    · intro hnonneg v hv imm' width' hconst'
      obtain rfl := List.mem_singleton.mp hv
      obtain ⟨rfl, rfl⟩ := Prod.mk.inj (Option.some.inj (hconst.symm.trans hconst'))
      exact hnonneg
    · intro hnonneg
      exact hnonneg operand hmem imm width hconst
  · cases h

/-! ## Agreement -/

/-- Steps that differ may add up alike: three rows of four bytes on and four
    bytes back are as far as three pairs of rows on and four rows back. -/
example : (Aarch64.memoryLayout.lowerGep [.constant 3, .value ⟨2, .i 64⟩]
      (.array (.array (.i 8) 4) 2)).map (·.displacement fun _ => BitVec.ofNat 64 (2 ^ 64 - 4)) =
    gepDisplacement (fun _ => 2 ^ 64 - 4) (.array (.array (.i 8) 4) 2)
      [.constant 3, .value ⟨2, .i 64⟩] := by decide

/-! ## One index over an array -/

/-- A kernel with one address computation, over its pointer parameter. -/
def gepKernel (srcElemTy : Ty) (indices : List GepIndex) : Kernel where
  blocks := [⟨[⟨0, .pointer⟩], [.gep ⟨1, .pointer⟩ ⟨0, .pointer⟩ srcElemTy indices, .other [] []]⟩]
  globals _ := none
  paramsGlobal := true

def gepSite (srcElemTy : Ty) (indices : List GepIndex) : GepSite :=
  ⟨⟨1, .pointer⟩, ⟨0, .pointer⟩, srcElemTy, indices⟩

/-- The parameter is at 4096. -/
def gepEntry : Env := fun v =>
  if v = ⟨0, .pointer⟩ then some ⟨4096, some (.param ⟨0, .pointer⟩)⟩ else none

/-- The state behind the computation. -/
def gepState (offset : Nat) : State :=
  ⟨0, [.other [] []], Function.update gepEntry ⟨1, .pointer⟩
    (some ⟨4096 + offset, some (.param ⟨0, .pointer⟩)⟩)⟩

theorem reachable_gep (thread : Thread) {ty : Ty} {c offset : Nat} (hlt : offset < 4096)
    (h : ∀ bits, gepOffset bits ty [.constant c] = some (BitVec.ofNat 64 offset)) :
    Reachable (gepKernel ty [.constant c]) thread (gepState offset) := by
  have hentry : Reachable (gepKernel ty [.constant c]) thread
      ⟨0, (gepKernel ty [.constant c]).entry.insts, gepEntry⟩ := by
    refine .entry ⟨rfl, rfl, fun p hp => ?_, fun v hv => ?_⟩
    · obtain rfl := List.mem_singleton.mp hp
      refine ⟨⟨4096, some (.param ⟨0, .pointer⟩)⟩, rfl, fun width hwidth => ?_, fun _ _ => rfl⟩
      obtain rfl := Option.some.inj hwidth
      decide
    · refine if_neg ?_
      rintro rfl
      exact hv List.mem_cons_self
  refine hentry.next_result rfl (fun v hv => ?_) (fun width hwidth => ?_)
    ⟨⟨4096, some (.param ⟨0, .pointer⟩)⟩, _, rfl, h _, rfl, BitVec.ofNat_add 4096 offset⟩
  · obtain rfl := List.mem_singleton.mp hv
    rfl
  · obtain rfl := Option.some.inj hwidth
    show 4096 + offset < 2 ^ 64
    omega

def byteGep : GepSite := gepSite (.i 8) [.constant 24]

end Crabbit.Nvptx
