/-
  Crabbit.Nvptx.Runs

  What one thread of a launch may do with a kernel body.

  A value is its bits and the object its address was derived from.  Pointer
  arithmetic and the register-aliasing casts stay in the object; what a load,
  an atomic or an operation the analyses do not look into returns is anything
  at all, so that the runs of one thread are its runs in every interleaving
  with the others.
-/

import Crabbit.Nvptx.Layout
import Mathlib.Logic.Function.Basic

namespace Crabbit.Nvptx

open Crabbit.Llvm (Value Ty GepIndex Successor)

/-! ## Values -/

/-- What an address may be derived from: the buffer handed to a pointer
    parameter, a module global, the dynamic shared-memory window, or the stack
    slot of an `alloca`. -/
inductive Object where
  | param (v : Value)
  | global (name : String)
  | dynShared
  | slot (v : Value)
  deriving DecidableEq

structure Val where
  bits : Nat
  object : Option Object
  deriving DecidableEq

abbrev Env := Value → Option Val

/-- The bits of a value; 0 where there is none. -/
def Env.bits (env : Env) (v : Value) : Nat := (env v).elim 0 Val.bits

/-- The bits are those of a number of the type's width. -/
def Fits (v : Value) (val : Val) : Prop := ∀ width, widthOf v.ty = some width → val.bits < 2 ^ width

/-! ## Launches -/

structure Dim3 where
  x : Nat
  y : Nat
  z : Nat
  deriving DecidableEq

/-- A thread of a launch within the hardware limits: block dimensions up to
    (1024, 1024, 64), grid dimensions up to (2^31 - 1, 65535, 65535). -/
structure Thread where
  ntid : Dim3
  nctaid : Dim3
  tid : Dim3
  ctaid : Dim3
  laneid : Nat
  block : ntid.x ≤ 1024 ∧ ntid.y ≤ 1024 ∧ ntid.z ≤ 64
  grid : nctaid.x < 2 ^ 31 ∧ nctaid.y ≤ 65535 ∧ nctaid.z ≤ 65535
  inBlock : tid.x < ntid.x ∧ tid.y < ntid.y ∧ tid.z < ntid.z
  inGrid : ctaid.x < nctaid.x ∧ ctaid.y < nctaid.y ∧ ctaid.z < nctaid.z
  inWarp : laneid < 32

/-- What the thread reads from a special register. -/
def Thread.sreg (t : Thread) : Sreg → Nat
  | .tidX => t.tid.x | .tidY => t.tid.y | .tidZ => t.tid.z
  | .ntidX => t.ntid.x | .ntidY => t.ntid.y | .ntidZ => t.ntid.z
  | .ctaidX => t.ctaid.x | .ctaidY => t.ctaid.y | .ctaidZ => t.ctaid.z
  | .nctaidX => t.nctaid.x | .nctaidY => t.nctaid.y | .nctaidZ => t.nctaid.z
  | .laneid => t.laneid
  | .warpSz => 32

/-- The thread of a launch of one. -/
def soleThread : Thread where
  ntid := ⟨1, 1, 1⟩
  nctaid := ⟨1, 1, 1⟩
  tid := ⟨0, 0, 0⟩
  ctaid := ⟨0, 0, 0⟩
  laneid := 0
  block := by decide
  grid := by decide
  inBlock := by decide
  inGrid := by decide
  inWarp := by decide

/-! ## Results -/

/-- The result of an integer operation, in the width of its type.  Shifts by
    the width or more leave 0, as the machine's do. -/
def BinKind.eval (kind : BinKind) (width a b : Nat) : Nat :=
  match kind with
  | .add => (a + b) % 2 ^ width
  | .sub => (a + (2 ^ width - b)) % 2 ^ width
  | .mul => a * b % 2 ^ width
  | .shl => a * 2 ^ b % 2 ^ width
  | .lshr => a / 2 ^ b
  | .and => a &&& b

/-- `val` is a possible result `r` of the operation, the operands of which are
    in `env`. -/
def Yields (thread : Thread) (env : Env) (inst : Inst) (r : Value) (val : Val) : Prop :=
  match inst with
  | .constant _ bits => ∀ width, widthOf r.ty = some width → val.bits = bits % 2 ^ width
  | .addressOf _ name => val.object = some (.global name)
  | .alloca _ _ => val.object = some (.slot r)
  | .gep _ base srcElemTy indices => ∃ b offset, env base = some b ∧
      gepOffset env.bits srcElemTy indices = some offset ∧ val.object = b.object ∧
      BitVec.ofNat 64 val.bits = BitVec.ofNat 64 b.bits + offset
  | .cast _ _ operand => env operand = some val
  | .bin kind _ lhs rhs => ∀ width, widthOf r.ty = some width →
      val.bits = kind.eval width (env.bits lhs) (env.bits rhs)
  | .zext _ operand => val.bits = env.bits operand
  | .trunc _ operand => ∀ width, widthOf r.ty = some width →
      val.bits = env.bits operand % 2 ^ width
  | .select _ cond onTrue onFalse =>
      env (if env.bits cond = 0 then onFalse else onTrue) = some val
  | .call _ callee _ =>
      (∀ reg, sregForCallee (canonicalName callee) = some reg → val.bits = thread.sreg reg) ∧
      (canonicalName callee = DYN_SHARED_INTRINSIC → val.object = some .dynShared)
  | _ => True

/-! ## Steps -/

structure State where
  block : Nat
  rest : List Inst
  env : Env

/-- Where a branch goes. -/
def Taken (env : Env) : Inst → Successor → Prop
  | .br target, succ => succ = target
  | .condBr cond onTrue onFalse, succ => succ = if env.bits cond = 0 then onFalse else onTrue
  | _, _ => False

/-- The parameters of an entry: a pointer parameter of an `.entry` kernel is
    an address in a buffer of its own. -/
structure Kernel.Entry (k : Kernel) (s : State) : Prop where
  block : s.block = 0
  rest : s.rest = k.entry.insts
  params : ∀ p ∈ k.entry.params, ∃ val, s.env p = some val ∧ Fits p val ∧
    (k.paramsGlobal = true → isPointer p.ty = true → val.object = some (.param p))
  others : ∀ v, v ∉ k.entry.params → s.env v = none

inductive Step (k : Kernel) (thread : Thread) : State → State → Prop where
  | next {s : State} {inst : Inst} {rest : List Inst} {env : Env} (hrest : s.rest = inst :: rest)
      (hsuccs : inst.succs = []) (hoperands : ∀ v ∈ inst.operands, (s.env v).isSome)
      (hframe : ∀ v, v ∉ inst.results → env v = s.env v)
      (hresults : ∀ r ∈ inst.results, ∃ val, env r = some val ∧ Fits r val ∧
        Yields thread s.env inst r val) :
      Step k thread s ⟨s.block, rest, env⟩
  | jump {s : State} {inst : Inst} {rest : List Inst} {target : Successor} {env : Env}
      (hrest : s.rest = inst :: rest) (htaken : Taken s.env inst target)
      (htarget : target ∈ inst.succs)
      (hoperands : ∀ v ∈ inst.operands, (s.env v).isSome)
      (hframe : ∀ v, v ∉ (k.block target.dest).params → env v = s.env v)
      (hparams : List.Forall₂ (fun p arg => env p = s.env arg) (k.block target.dest).params
        target.args) :
      Step k thread s ⟨target.dest, (k.block target.dest).insts, env⟩

/-- A state some run of a thread gets to. -/
inductive Reachable (k : Kernel) (thread : Thread) : State → Prop where
  | entry {s : State} (h : k.Entry s) : Reachable k thread s
  | step {s t : State} (h : Reachable k thread s) (hstep : Step k thread s t) :
      Reachable k thread t

/-! ## Accesses -/

/-- The thread is about to load through `address`, which holds `val`. -/
def Reads (s : State) (address : Value) (val : Val) : Prop :=
  ∃ r rest, s.rest = .load r address :: rest ∧ s.env address = some val

/-- The thread is about to write through `val`.  A call of which nothing is
    known, and inline assembly, may write through anything. -/
inductive Writes (s : State) (val : Val) : Prop where
  | store {value address rest} (hrest : s.rest = .store value address :: rest)
      (h : s.env address = some val)
  | atomicRmw {results address values rest} (hrest : s.rest = .atomicRmw results address values :: rest)
      (h : s.env address = some val)
  | atomicCmpxchg {results address values rest}
      (hrest : s.rest = .atomicCmpxchg results address values :: rest)
      (h : s.env address = some val)
  | atomicCall {results callee address operands rest}
      (hrest : s.rest = .call results callee (address :: operands) :: rest)
      (heffect : callMemEffect (canonicalName callee) = .atomicPtrArg)
      (h : s.env address = some val)
  | unknownCall {results callee operands rest}
      (hrest : s.rest = .call results callee operands :: rest)
      (heffect : callMemEffect (canonicalName callee) = .unknown)
  | inlineAsm {results operands rest} (hrest : s.rest = .inlineAsm results operands :: rest)

/-! ## What a run keeps -/

variable {k : Kernel} {thread : Thread} {s t : State}

/-- Control is somewhere in its block. -/
theorem Reachable.located (h : Reachable k thread s) :
    ∃ done, (k.block s.block).insts = done ++ s.rest := by
  induction h with
  | entry h =>
      rw [h.block, h.rest]
      exact ⟨[], rfl⟩
  | step _ hstep ih =>
      obtain ⟨done, hinsts⟩ := ih
      cases hstep with
      | next hrest =>
          rename_i inst rest env _ _ _ _
          exact ⟨done ++ [inst], by rw [hinsts, hrest, List.append_assoc]; rfl⟩
      | jump => exact ⟨[], rfl⟩

theorem Reachable.mem_insts (h : Reachable k thread s) {inst : Inst} (hinst : inst ∈ s.rest) :
    inst ∈ k.insts := by
  obtain ⟨done, hinsts⟩ := h.located
  apply Kernel.mem_insts_of_block (b := s.block)
  rw [hinsts]
  exact List.mem_append_right _ hinst

/-- A step of an operation with one result. -/
theorem Reachable.next_result {b : Nat} {inst : Inst} {rest : List Inst} {env : Env}
    (h : Reachable k thread ⟨b, inst :: rest, env⟩) {r : Value} (hresults : inst.results = [r])
    (hoperands : ∀ v ∈ inst.operands, (env v).isSome) {val : Val} (hfits : Fits r val)
    (hyields : Yields thread env inst r val) :
    Reachable k thread ⟨b, rest, Function.update env r (some val)⟩ := by
  have hsuccs : inst.succs = [] := by
    cases inst <;> first | rfl | cases hresults
  refine h.step (.next rfl hsuccs hoperands (fun v hv => ?_) fun v hv => ?_)
  · rw [hresults, List.mem_singleton] at hv
    exact Function.update_of_ne hv ..
  · rw [hresults, List.mem_singleton] at hv
    subst hv
    exact ⟨val, Function.update_self .., hfits, hyields⟩

/-- A parameter of a branch target gets the argument at its place. -/
theorem exists_arg {R : Value → Value → Prop} {params args : List Value}
    (h : List.Forall₂ R params args) {v : Value} (hv : v ∈ params) :
    ∃ arg, (arg, v) ∈ args.zip params ∧ R v arg := by
  induction h with
  | nil => exact absurd hv List.not_mem_nil
  | @cons p arg params args hp _ ih =>
      rcases List.mem_cons.mp hv with rfl | hv
      · exact ⟨arg, List.mem_cons_self, hp⟩
      · obtain ⟨a, hmem, ha⟩ := ih hv
        exact ⟨a, List.mem_cons_of_mem _ hmem, ha⟩

end Crabbit.Nvptx
