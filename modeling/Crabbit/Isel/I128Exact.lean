/-
  Crabbit.Isel.I128Exact

  128-bit integers on both CPU back ends, from any state of the machine: the code
  that is selected for an operation or a comparison runs, leaves the result and
  changes no register but fresh ones.
-/

import Crabbit.Aarch64.Lowering
import Crabbit.X86.Lowering

namespace Crabbit.Isel

open Crabbit.Lib
open Crabbit.Llvm (ICmpPredicate IntBinOp Ty evalBin evalICmp)

variable {T : Target}

/-! ## States -/

/-- An operand in a state, in registers that are not fresh: a constant, a pair, or
    a register that is extended as its type says. -/
def OperandAt (M : Machine T) (next : Nat) (s : M.State) (ty : Ty) :
    LoweredValue T.Register → BitVec 128 → Prop
  | .imm imm, x => imm = x.toNat
  | .regPair lo hi, x => ¬FreshFrom T next lo ∧ ¬FreshFrom T next hi ∧
      wide (M.word s lo) (M.word s hi) = x
  | .reg r, x => ¬FreshFrom T next r ∧ IsInteger T r ∧
      (if isSigned ty then (M.word s r).signExtend 128 else (M.word s r).setWidth 128) = x
  | _, _ => False

/-- A result in a state: a constant or a pair. -/
def ResultAt (M : Machine T) (s : M.State) (z : Nat) : LoweredValue T.Register → Prop
  | .imm imm => imm = z
  | .regPair lo hi => (wide (M.word s lo) (M.word s hi)).toNat = z
  | _ => False

/-- The selection succeeds and its code runs from `s` to where the result is as
    `Q` says; only registers that were fresh have changed. -/
def Delivers {α : Type} (M : Machine T) (m : Select T α) (sel : Selection T) (s : M.State)
    (Q : M.State → α → Prop) : Prop :=
  ∃ a sel' code s', m sel = .ok (a, sel') ∧ sel'.code = sel.code ++ code ∧
    M.run code s = some s' ∧ Q s' a ∧ ∀ r, ¬FreshFrom T sel.next r → M.read s' r = M.read s r

/-- Operations and comparisons of 128 bits are exact. -/
structure I128Exact (M : Machine T) (L : Lowering T) {K : Type} (op : K → IntBinOp)
    (dynamic : Bool) (lowerBinary : K → LoweredValue T.Register → LoweredValue T.Register → Ty →
      Select T (LoweredValue T.Register)) : Prop where
  binary : ∀ (kind : K) (lhs rhs : LoweredValue T.Register) (ty : Ty) (x y : BitVec 128) (z : Nat)
    (sel : Selection T) (s : M.State), is128BitInteger ty = true →
    OperandAt M sel.next s ty lhs x → OperandAt M sel.next s ty rhs y →
    Accepts dynamic rhs (op kind) → evalBin (op kind) 128 x.toNat y.toNat = some z →
    Delivers M (lowerBinary kind lhs rhs ty) sel s fun s' v => ResultAt M s' z v
  compare : ∀ (predicate : ICmpPredicate) (lhs rhs : LoweredValue T.Register) (lhsTy rhsTy : Ty)
    (x y : BitVec 128) (sel : Selection T) (s : M.State), is128BitInteger lhsTy = true →
    OperandAt M sel.next s lhsTy lhs x → OperandAt M sel.next s rhsTy rhs y →
    Delivers M (L.lowerCompareValue predicate lhsTy lhs rhsTy rhs) sel s fun s' r =>
      M.word s' r = bit (evalICmp predicate 128 x.toNat y.toNat)

/-! ## From what is known -/

section Start

variable {M : Machine T}

/-- Registers that are not fresh hold what they hold. -/
theorem known_start {sel : Selection T} {s : M.State} {rs : List T.Register}
    (h : ∀ r ∈ rs, ¬FreshFrom T sel.next r) :
    Known M ⟨sel.code, sel.next, s⟩ [] (rs.map fun r => ⟨r, M.word s r⟩) none sel := by
  refine ⟨Nat.le_refl _, ⟨[], s, (List.append_nil _).symm, rfl, fun _ _ => rfl, fun f hf => ?_,
    fun _ _ h => nomatch h⟩, fun f hf => ?_, fun _ h => absurd h List.not_mem_nil,
    fun _ h => absurd h List.not_mem_nil, fun _ h => absurd h List.not_mem_nil, List.nodup_nil⟩
  · obtain ⟨r, -, rfl⟩ := List.mem_map.mp hf
    rfl
  · obtain ⟨r, hr, rfl⟩ := List.mem_map.mp hf
    exact h r hr

theorem OperandAt.operand {next : Nat} {s : M.State} {ty : Ty} {v : LoweredValue T.Register}
    {x : BitVec 128} (h : OperandAt M next s ty v x) {facts : List (Fact T)}
    (hfacts : ∀ r ∈ v.registers, ⟨r, M.word s r⟩ ∈ facts) : Operand facts ty v x := by
  cases v with
  | imm imm =>
    have heq : imm = x.toNat := h
    exact heq ▸ Operand.imm x
  | regPair lo hi =>
    obtain ⟨-, -, rfl⟩ := h
    exact Operand.regPair (hfacts lo List.mem_cons_self)
      (hfacts hi (List.mem_cons_of_mem _ List.mem_cons_self))
  | reg r =>
    obtain ⟨-, hint, rfl⟩ := h
    exact Operand.reg (hfacts r List.mem_cons_self) hint
  | _ => exact h.elim

theorem OperandAt.not_fresh {next : Nat} {s : M.State} {ty : Ty} {v : LoweredValue T.Register}
    {x : BitVec 128} (h : OperandAt M next s ty v x) : ∀ r ∈ v.registers, ¬FreshFrom T next r := by
  cases v with
  | imm imm => exact fun r hr => absurd hr List.not_mem_nil
  | regPair lo hi =>
    exact List.forall_mem_cons.mpr ⟨h.1, List.forall_mem_singleton.mpr h.2.1⟩
  | reg r => exact List.forall_mem_singleton.mpr h.1
  | _ => exact h.elim

/-- What a selection yields from the start, it delivers. -/
theorem Yields.delivers {α : Type} {m : Select T α} {sel : Selection T} {s : M.State}
    {facts : List (Fact T)} {Q : M.State → α → Prop} {R : α → Selection T → Prop}
    (hstart : Known M ⟨sel.code, sel.next, s⟩ [] facts none sel)
    (h : Yields (Known M ⟨sel.code, sel.next, s⟩ [] facts none) m R)
    (hresult : ∀ a sel', R a sel' → ∃ facts', Known M ⟨sel.code, sel.next, s⟩ [] facts' none sel' ∧
      ∀ s', (∀ f ∈ facts', M.word s' f.reg = f.value) → Q s' a) : Delivers M m sel s Q := by
  obtain ⟨a, sel', hrun, hr⟩ := h sel hstart
  obtain ⟨facts', hknown, hq⟩ := hresult a sel' hr
  obtain ⟨code, s', hcode, hreach⟩ := hknown.reaches
  exact ⟨a, sel', code, s', hrun, hcode, hreach.runs, hq s' hreach.holds, hreach.unchanged⟩

theorem i128Exact {L : Lowering T} {dynamic : DynamicLowering T}
    {fold : IntBinOp → Nat → Nat → Ty → Option Nat} {K : Type} {op : K → IntBinOp}
    (hext : L.SignExtends M) (hsupports : Supports M dynamic)
    (hasr : ∀ kind, op kind = .ashr → M.has .asr)
    (hfold : ∀ {op lhs rhs z ty}, is128BitInteger ty = true → Aarch64.isDivision op = false →
      evalBin op 128 lhs rhs = some z → fold op lhs rhs ty = some z) :
    I128Exact M L op dynamic.isSome fun kind => L.lowerBinary128 fold dynamic (op kind) where
  binary := by
    intro kind lhs rhs ty x y z sel s hty hl hr haccepts hz
    have hdivision : Aarch64.isDivision (op kind) = false := by
      revert haccepts
      cases op kind <;> simp [Accepts, Aarch64.isDivision]
    have hop : op kind ≠ .sdiv ∧ op kind ≠ .udiv ∧ op kind ≠ .srem ∧ op kind ≠ .urem := by
      revert hdivision
      cases op kind <;> simp [Aarch64.isDivision]
    obtain ⟨w, hw, rfl⟩ := exists_bitVecBin hop hz
    have hstart := known_start (s := s) fun r hr' =>
      (List.mem_append.mp hr').elim (hl.not_fresh r) (hr.not_fresh r)
    refine Yields.delivers hstart (Lowering.yields_lowerBinary128 hext hsupports (hasr kind)
      (hl.operand fun r hr' => ?_) (hr.operand fun r hr' => ?_) (hfold hty hdivision hz) haccepts
      hw) fun v sel' hresult => ?_
    · exact List.mem_map.mpr ⟨r, List.mem_append_left _ hr', rfl⟩
    · exact List.mem_map.mpr ⟨r, List.mem_append_right _ hr', rfl⟩
    · rcases hresult with ⟨rfl, hknown⟩ | ⟨pair, rfl, lo, hi, hknown, rfl⟩
      · exact ⟨_, hknown, fun _ _ => rfl⟩
      · refine ⟨_, hknown, fun s' hs' => ?_⟩
        have hlo : M.word s' pair.1 = lo := hs' _ List.mem_cons_self
        have hhi : M.word s' pair.2 = hi := hs' _ (List.mem_cons_of_mem _ List.mem_cons_self)
        show (wide (M.word s' pair.1) (M.word s' pair.2)).toNat = _
        rw [hlo, hhi]
  compare := by
    intro predicate lhs rhs lhsTy rhsTy x y sel s hty hl hr
    have hstart := known_start (s := s) fun r hr' =>
      (List.mem_append.mp hr').elim (hl.not_fresh r) (hr.not_fresh r)
    refine Yields.delivers hstart (Lowering.yields_lowerCompareValue hext
      (hsupports.words _ (by decide)) (hsupports.words _ (by decide)) hty
      (hl.operand fun r hr' => ?_) (hr.operand fun r hr' => ?_)) fun r sel' hresult => ?_
    · exact List.mem_map.mpr ⟨r, List.mem_append_left _ hr', rfl⟩
    · exact List.mem_map.mpr ⟨r, List.mem_append_right _ hr', rfl⟩
    · exact ⟨_, hresult, fun s' hs' => hs' _ List.mem_cons_self⟩

end Start

/-! ## Both back ends -/

/-- 128-bit integers are lowered exactly by both back ends: the operations other
    than divisions, with shifts by constants and, on AArch64, by registers, and
    all comparisons. -/
theorem i128_exact :
    I128Exact Aarch64.machine Aarch64.lowering id true Aarch64.lowerBinary128 ∧
    I128Exact X86.machine X86.lowering X86.BinaryKind.op false X86.lowerBinary128 :=
  ⟨i128Exact Aarch64.signExtends Aarch64.supports (fun _ _ => trivial) Aarch64.foldBinary_wide,
    i128Exact X86.signExtends X86.supports (fun kind h => absurd h kind.op_ne_ashr)
      Aarch64.foldBinary_wide⟩

/-- Zero minus one borrows from the high half. -/
theorem i128_exact_zero_sub_one :
    Delivers X86.machine
      (X86.lowerBinary128 .sub (.regPair X86.RAX X86.RDX) (.imm 1) (.int 128 .signless)) ⟨0, []⟩
      ⟨fun _ => 0, none, fun _ => 0⟩ (fun s v => ResultAt X86.machine s (2 ^ 128 - 1) v) := by
  have hphysical : ∀ i, ¬FreshFrom X86.target 0 (X86.Register.physical i) := by
    rintro i ⟨j, -, h⟩
    cases X86.isVirtual_id h
  exact i128_exact.2.binary .sub _ _ _ 0 1 _ _ _ rfl ⟨hphysical _, hphysical _, rfl⟩ rfl trivial
    (by decide)

end Crabbit.Isel
