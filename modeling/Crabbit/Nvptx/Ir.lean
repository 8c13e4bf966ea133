/-
  Crabbit.Nvptx.Ir

  Kernel bodies as the NVPTX back end reads them (`nvptx/mod.rs`): the
  operations of the LLVM dialect that carry addresses and the integers
  addresses are computed from.  Every other operation is `other`.

  The blocks of a body are those control can reach, in the order the analyses
  visit them; the entry comes first.
-/

import Crabbit.Llvm.Availability

namespace Crabbit.Nvptx

open Crabbit.Llvm (Value Ty GepIndex Successor)

/-! ## Operations -/

/-- The casts that map a value to its operand's register. -/
inductive CastKind where
  | bitcast | addrSpaceCast | freeze | intToPtr | ptrToInt
  deriving DecidableEq

/-- The integer operations the address analyses look through. -/
inductive BinKind where
  | add | sub | mul | shl | lshr | and
  deriving DecidableEq

inductive Inst where
  | constant (result : Value) (bits : Nat)
  | addressOf (result : Value) (name : String)
  | alloca (result : Value) (operands : List Value)
  | gep (result base : Value) (srcElemTy : Ty) (indices : List GepIndex)
  | cast (kind : CastKind) (result operand : Value)
  | bin (kind : BinKind) (result lhs rhs : Value)
  | zext (result operand : Value)
  | trunc (result operand : Value)
  | select (result cond onTrue onFalse : Value)
  | load (result address : Value)
  | store (value address : Value)
  | atomicRmw (results : List Value) (address : Value) (values : List Value)
  | atomicCmpxchg (results : List Value) (address : Value) (values : List Value)
  | inlineAsm (results operands : List Value)
  | call (results : List Value) (callee : Option String) (operands : List Value)
  | br (target : Successor)
  | condBr (cond : Value) (onTrue onFalse : Successor)
  | other (results operands : List Value)
  deriving DecidableEq

namespace Inst

def results : Inst → List Value
  | .constant r _ | .addressOf r _ | .alloca r _ | .gep r .. | .cast _ r _ | .bin _ r .. => [r]
  | .zext r _ | .trunc r _ | .select r .. | .load r _ => [r]
  | .store .. | .br _ | .condBr .. => []
  | .atomicRmw rs .. | .atomicCmpxchg rs .. | .inlineAsm rs _ | .call rs .. | .other rs _ => rs

def succs : Inst → List Successor
  | .br target => [target]
  | .condBr _ onTrue onFalse => [onTrue, onFalse]
  | _ => []

/-- The operands, branch arguments included. -/
def operands : Inst → List Value
  | .constant .. | .addressOf .. => []
  | .alloca _ operands => operands
  | .gep _ base _ indices => base :: indices.flatMap GepIndex.operands
  | .cast _ _ operand | .zext _ operand | .trunc _ operand => [operand]
  | .bin _ _ lhs rhs => [lhs, rhs]
  | .select _ cond onTrue onFalse => [cond, onTrue, onFalse]
  | .load _ address => [address]
  | .store value address => [value, address]
  | .atomicRmw _ address values | .atomicCmpxchg _ address values => address :: values
  | .inlineAsm _ operands | .call _ _ operands | .other _ operands => operands
  | .br target => target.args
  | .condBr cond onTrue onFalse => cond :: (onTrue.args ++ onFalse.args)

/-- The operation as the control-flow lemmas see it. -/
def skeleton (inst : Inst) : Llvm.Op :=
  .generic (.unlisted 0) 0 inst.results inst.operands inst.succs

@[simp] theorem skeleton_results (inst : Inst) : inst.skeleton.results = inst.results := rfl

theorem mem_skeleton_operands {inst : Inst} {v : Value} (h : v ∈ inst.operands) :
    v ∈ inst.skeleton.operands :=
  List.mem_append_left _ h

end Inst

/-! ## Bodies -/

structure Block where
  params : List Value
  insts : List Inst
  deriving DecidableEq

/-- The state space of a module global. -/
inductive GlobalSpace where
  | global | shared
  deriving DecidableEq

/-- A function and what the emitter knows of its module.  `paramsGlobal` tells
    an `.entry` kernel, the pointer parameters of which address global memory,
    from a device `.func`. -/
structure Kernel where
  blocks : List Block
  globals : String → Option GlobalSpace
  paramsGlobal : Bool

namespace Kernel

def block (k : Kernel) (b : Nat) : Block := k.blocks.getD b ⟨[], []⟩

def entry (k : Kernel) : Block := k.block 0

/-- All operations, in the order the analyses visit them. -/
def insts (k : Kernel) : List Inst := k.blocks.flatMap Block.insts

/-- The body as the control-flow lemmas see it. -/
def region (k : Kernel) : Llvm.Region where
  blocks := k.blocks.map fun b => ⟨b.params, b.insts.map Inst.skeleton⟩

variable {k : Kernel}

theorem block_mem {b : Nat} (h : b < k.blocks.length) : k.block b ∈ k.blocks := by
  unfold block
  rw [List.getD_eq_getElem?_getD, List.getElem?_eq_getElem h]
  exact List.getElem_mem h

theorem mem_insts_of_block {b : Nat} {inst : Inst} (h : inst ∈ (k.block b).insts) :
    inst ∈ k.insts := by
  by_cases hb : b < k.blocks.length
  · exact List.mem_flatMap.mpr ⟨k.block b, block_mem hb, h⟩
  · unfold block at h
    rw [List.getD_eq_getElem?_getD, List.getElem?_eq_none (Nat.not_lt.mp hb)] at h
    exact absurd h List.not_mem_nil

theorem region_block (k : Kernel) (b : Nat) :
    k.region.block b = ⟨(k.block b).params, (k.block b).insts.map Inst.skeleton⟩ := by
  unfold region Llvm.Region.block block
  rw [List.getD_eq_getElem?_getD, List.getElem?_map, List.getD_eq_getElem?_getD]
  cases k.blocks[b]? <;> rfl

theorem region_ops (k : Kernel) : k.region.ops = k.insts.map Inst.skeleton := by
  unfold region Llvm.Region.ops insts
  rw [List.flatMap_map, List.map_flatMap]

theorem nodup_defs (h : k.region.Ssa) :
    (k.blocks.flatMap fun b => b.params ++ b.insts.flatMap Inst.results).Nodup := by
  have hnodup := h.nodup
  unfold region at hnodup
  rw [List.flatMap_map] at hnodup
  have hdefs : ∀ b : Block, Llvm.BasicBlock.defs ⟨b.params, b.insts.map Inst.skeleton⟩ =
      b.params ++ b.insts.flatMap Inst.results := by
    intro b
    rw [Llvm.BasicBlock.defs, List.flatMap_map]
    rfl
  simpa only [hdefs] using hnodup

theorem nodup_results (h : k.region.Ssa) : (k.insts.flatMap Inst.results).Nodup := by
  obtain ⟨hblocks, hdisjoint⟩ := List.nodup_flatMap.mp (nodup_defs h)
  rw [insts, List.flatMap_assoc]
  refine List.nodup_flatMap.mpr ⟨fun b hb => (List.nodup_append.mp (hblocks b hb)).2.1, ?_⟩
  exact hdisjoint.imp fun hb v hv hv' =>
    hb (List.mem_append_right _ hv) (List.mem_append_right _ hv')

/-- A value is a result of one operation. -/
theorem inst_unique (h : k.region.Ssa) {inst inst' : Inst} (hinst : inst ∈ k.insts)
    (hinst' : inst' ∈ k.insts) {v : Value} (hv : v ∈ inst.results) (hv' : v ∈ inst'.results) :
    inst = inst' := by
  obtain ⟨b, hb, hinst⟩ := List.mem_flatMap.mp hinst
  obtain ⟨b', hb', hinst'⟩ := List.mem_flatMap.mp hinst'
  obtain rfl : b = b' := Llvm.Region.eq_of_mem_flatMap (nodup_defs h) hb hb' (x := v)
    (List.mem_append_right _ (List.mem_flatMap.mpr ⟨inst, hinst, hv⟩))
    (List.mem_append_right _ (List.mem_flatMap.mpr ⟨inst', hinst', hv'⟩))
  have hblock := (List.nodup_append.mp ((List.nodup_flatMap.mp (nodup_defs h)).1 b hb)).2.1
  exact Llvm.Region.eq_of_mem_flatMap hblock hinst hinst' hv hv'

/-- A block parameter is not a result. -/
theorem param_notMem_results (h : k.region.Ssa) {b : Nat} {v : Value}
    (hv : v ∈ (k.block b).params) {inst : Inst} (hinst : inst ∈ k.insts) : v ∉ inst.results := by
  intro hres
  by_cases hb : b < k.blocks.length
  · obtain ⟨b', hb', hinst⟩ := List.mem_flatMap.mp hinst
    have hv' : v ∈ b'.insts.flatMap Inst.results := List.mem_flatMap.mpr ⟨inst, hinst, hres⟩
    obtain rfl : k.block b = b' := Llvm.Region.eq_of_mem_flatMap (nodup_defs h) (block_mem hb) hb'
      (x := v) (List.mem_append_left _ hv) (List.mem_append_right _ hv')
    have hblock := (List.nodup_flatMap.mp (nodup_defs h)).1 _ hb'
    exact (List.nodup_append.mp hblock).2.2 v hv v hv' rfl
  · unfold block at hv
    rw [List.getD_eq_getElem?_getD, List.getElem?_eq_none (Nat.not_lt.mp hb)] at hv
    exact absurd hv List.not_mem_nil

end Kernel

/-! ## Types -/

/-- The bit width of a type; pointers count as 64. -/
def widthOf : Ty → Option Nat
  | .int width _ => some width
  | .pointer => some 64
  | .fp32 => some 32
  | .fp64 => some 64
  | _ => none

def isPointer : Ty → Bool
  | .pointer => true
  | _ => false

/-! ## Intrinsic calls -/

/-- What is left of a name behind a beginning it has. -/
def stripped (beginning name : String) : Option String :=
  if beginning.toList.isPrefixOf name.toList then
    some (String.ofList (name.toList.drop beginning.length))
  else none

/-- The canonical (underscored, stripped) form of an NVVM intrinsic callee. -/
def nvvmIntrinsicName (name : String) : String :=
  let name := name.map fun c => if c = '.' then '_' else c
  ((stripped "llvm_" name).or (stripped "int_" name)).getD name

/-- The name an intrinsic call is recognised by; indirect calls have none. -/
def canonicalName (callee : Option String) : String := callee.elim "" nvvmIntrinsicName

/-- The PTX special registers. -/
inductive Sreg where
  | tidX | tidY | tidZ | ntidX | ntidY | ntidZ
  | ctaidX | ctaidY | ctaidZ | nctaidX | nctaidY | nctaidZ
  | laneid | warpSz
  deriving DecidableEq

/-- Special-register intrinsics: canonical callee name to special register. -/
def sregForCallee (name : String) : Option Sreg :=
  [("nvvm_read_ptx_sreg_tid_x", Sreg.tidX), ("nvvm_read_ptx_sreg_tid_y", .tidY),
    ("nvvm_read_ptx_sreg_tid_z", .tidZ), ("nvvm_read_ptx_sreg_ntid_x", .ntidX),
    ("nvvm_read_ptx_sreg_ntid_y", .ntidY), ("nvvm_read_ptx_sreg_ntid_z", .ntidZ),
    ("nvvm_read_ptx_sreg_ctaid_x", .ctaidX), ("nvvm_read_ptx_sreg_ctaid_y", .ctaidY),
    ("nvvm_read_ptx_sreg_ctaid_z", .ctaidZ), ("nvvm_read_ptx_sreg_nctaid_x", .nctaidX),
    ("nvvm_read_ptx_sreg_nctaid_y", .nctaidY), ("nvvm_read_ptx_sreg_nctaid_z", .nctaidZ),
    ("nvvm_read_ptx_sreg_laneid", .laneid), ("nvvm_read_ptx_sreg_warpsize", .warpSz)].lookup name

/-- Warp shuffle intrinsics. -/
def SHFL_INTRINSICS : List String :=
  ["nvvm_shfl_sync_down_i32", "nvvm_shfl_sync_down_f32", "nvvm_shfl_sync_up_i32",
    "nvvm_shfl_sync_up_f32", "nvvm_shfl_sync_bfly_i32", "nvvm_shfl_sync_bfly_f32",
    "nvvm_shfl_sync_idx_i32", "nvvm_shfl_sync_idx_f32"]

/-- Warp vote intrinsics. -/
def VOTE_INTRINSICS : List String :=
  ["nvvm_vote_ballot_sync", "nvvm_vote_all_sync", "nvvm_vote_any_sync", "nvvm_vote_uni_sync"]

/-- Atomic intrinsics. -/
def ATOMIC_INTRINSICS : List String :=
  ["nvvm_atomic_add_gen_i", "nvvm_atomic_add_gen_i_cta", "nvvm_atomic_add_gen_i_sys",
    "nvvm_atomic_add_gen_f", "nvvm_atomic_add_gen_f_cta", "nvvm_atomic_add_gen_ll",
    "nvvm_atomic_add_gen_d", "nvvm_atomic_max_gen_i", "nvvm_atomic_min_gen_i",
    "nvvm_atomic_max_gen_ui", "nvvm_atomic_min_gen_ui", "nvvm_atomic_and_gen_i",
    "nvvm_atomic_or_gen_i", "nvvm_atomic_xor_gen_i", "nvvm_atomic_exch_gen_i"]

/-- Math intrinsics: register in, register out. -/
def MATH_INTRINSICS : List String :=
  ["nvvm_sqrt_rn_f", "nvvm_sqrt_f", "sqrt_f32", "__nv_sqrtf", "nvvm_sqrt_approx_f",
    "nvvm_rsqrt_approx_f", "nvvm_ex2_approx_f", "exp2_f32", "nvvm_lg2_approx_f", "log2_f32",
    "nvvm_sin_approx_f", "nvvm_cos_approx_f", "nvvm_rcp_approx_f", "nvvm_fabs_f", "fabs_f32",
    "__nv_fabsf", "nvvm_floor_f", "floor_f32", "__nv_floorf", "nvvm_ceil_f", "ceil_f32",
    "__nv_ceilf", "nvvm_round_f", "nvvm_rint_f", "__nv_rintf", "nvvm_trunc_f", "trunc_f32",
    "__nv_truncf", "nvvm_fmax_f", "maxnum_f32", "__nv_fmaxf", "nvvm_fmin_f", "minnum_f32",
    "__nv_fminf", "nvvm_fma_rn_f", "fma_f32", "__nv_fmaf", "nvvm_sqrt_rn_d", "sqrt_f64",
    "__nv_sqrt", "nvvm_rsqrt_approx_d", "nvvm_fabs_d", "fabs_f64", "__nv_fabs", "nvvm_floor_d",
    "floor_f64", "__nv_floor", "nvvm_ceil_d", "ceil_f64", "__nv_ceil", "nvvm_fmax_d",
    "maxnum_f64", "__nv_fmax", "nvvm_fmin_d", "minnum_f64", "__nv_fmin", "nvvm_fma_rn_d",
    "fma_f64", "__nv_fma"]

/-- The intrinsic that yields the base of the dynamic shared-memory window. -/
def DYN_SHARED_INTRINSIC : String := "crabbit_dyn_shared_base"

/-- How a call may write memory. -/
inductive CallMemEffect where
  /-- Writes through no pointer. -/
  | none
  /-- Writes exactly through its first operand. -/
  | atomicPtrArg
  /-- May write through any pointer it can reach. -/
  | unknown
  deriving DecidableEq

def callMemEffect (canonical : String) : CallMemEffect :=
  if canonical ∈ ATOMIC_INTRINSICS then .atomicPtrArg
  else if (sregForCallee canonical).isSome ∨ canonical ∈ SHFL_INTRINSICS ∨
      canonical ∈ VOTE_INTRINSICS ∨ canonical ∈ MATH_INTRINSICS ∨
      canonical = DYN_SHARED_INTRINSIC ∨
      "nvvm_isspacep_".toList.isPrefixOf canonical.toList ∨
      canonical ∈ ["nvvm_barrier0", "nvvm_barrier_cta_sync_aligned_all", "trap",
        "nvvm_bar_warp_sync", "nvvm_membar_gl", "nvvm_membar_cta", "nvvm_membar_sys"] then .none
  else .unknown

/-! ## Well-typed bodies -/

/-- Integer types, the first narrower than the second. -/
def narrower (a b : Ty) : Bool :=
  match a.intWidth, b.intWidth with
  | some w, some w' => w < w'
  | _, _ => false

/-- What the verifier and the register classes of the emitter promise about
    the types of an operation. -/
def Inst.Typed (k : Kernel) : Inst → Prop
  | .constant r _ => r.ty.intWidth.isSome = true
  | .addressOf r _ => r.ty = .pointer
  | .gep r base _ _ => r.ty = .pointer ∧ base.ty = .pointer
  | .cast _ r operand => widthOf r.ty = widthOf operand.ty
  | .bin _ r lhs rhs => r.ty.intWidth.isSome = true ∧ lhs.ty = r.ty ∧ rhs.ty = r.ty
  | .zext r operand => narrower operand.ty r.ty = true
  | .trunc r operand => narrower r.ty operand.ty = true
  | .select r cond onTrue onFalse =>
      cond.ty.intWidth = some 1 ∧ onTrue.ty = r.ty ∧ onFalse.ty = r.ty
  | .call results callee _ =>
      (canonicalName callee = DYN_SHARED_INTRINSIC → ∀ r ∈ results, widthOf r.ty = some 64) ∧
      ((sregForCallee (canonicalName callee)).isSome = true →
        ∀ r ∈ results, widthOf r.ty = some 32)
  | .br target => target.args.map Value.ty = (k.block target.dest).params.map Value.ty
  | .condBr cond onTrue onFalse => cond.ty.intWidth = some 1 ∧
      onTrue.args.map Value.ty = (k.block onTrue.dest).params.map Value.ty ∧
      onFalse.args.map Value.ty = (k.block onFalse.dest).params.map Value.ty
  | _ => True

instance (k : Kernel) (inst : Inst) : Decidable (inst.Typed k) := by
  cases inst <;> unfold Inst.Typed <;> infer_instance

/-- A well-typed body. -/
def Kernel.Typed (k : Kernel) : Prop := ∀ inst ∈ k.insts, inst.Typed k

instance (k : Kernel) : Decidable k.Typed := inferInstanceAs (Decidable (∀ inst ∈ k.insts, _))

end Crabbit.Nvptx
