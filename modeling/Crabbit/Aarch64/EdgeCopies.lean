/-
  Crabbit.Aarch64.EdgeCopies

  Copies between registers of all classes on AArch64 (`emit_move` of
  `passes/aarch64/llvm_to_aarch64_isel.rs` and the rest of
  `emit_block_arg_copies`).
-/

import Crabbit.Aarch64.Lowering
import Crabbit.Isel.BlockArgsSound

namespace Crabbit.Aarch64

open Crabbit.Isel (Copies FreshFrom Select Selection emit freshVreg)

/-- The class of a scratch register for the values of another one. -/
def scratchClass : RegisterClass → RegisterClass
  | .fpr64 => .fpr64
  | .fpr32 => .fpr32
  | .simd128 => .simd128
  | _ => .gpr64

/-- `emit_move`. -/
def emitMove (dst src : Register) : Option SelectedInst :=
  match dst.registerClass, src.registerClass with
  | .gpr64, .gpr64 => some (.plain (.mov dst src))
  | .simd128, .simd128 => some (.fmovRr .movV16b dst src)
  | .fpr64, .fpr64 => some (.fmovRr .fmovD dst src)
  | .fpr32, .fpr32 => some (.fmovRr .fmovS dst src)
  | .fpr64, .gpr64 => some (.unary .fmovDX dst src)
  | .gpr64, .fpr64 => some (.unary .fmovXD dst src)
  | .fpr32, .gpr64 => some (.unary .fmovSW dst src)
  | .gpr64, .fpr32 => some (.unary .fmovWS dst src)
  | _, _ => none

/-- Zeroing through the integer file; `last` moves the zero. -/
def clearThroughGpr (last : Register → Option SelectedInst) : Select target Unit := do
  let zero ← freshVreg (T := target)
  emit (T := target) (.plain (.movImm zero 0))
  match last zero with
  | some inst => emit (T := target) inst
  | none => throw "register copy between incompatible classes"

/-- The code of an undefined leaf. -/
def emitClear (dst : Register) : Select target Unit :=
  match dst.registerClass with
  | .fpr64 | .fpr32 => clearThroughGpr (emitMove dst)
  | .simd128 => clearThroughGpr fun zero => some (.unary .dupV2dGpr dst zero)
  | _ => emit (T := target) (.plain (.movImm dst 0))

def copies : Copies target where
  scratch r n := .virtual n (scratchClass r.registerClass)
  scratch_ne _ n h := absurd (Register.virtual.inj h).1 (Nat.ne_of_lt (Nat.lt_succ_self n))
  move := emitMove
  clear := emitClear

/-! ## The laws -/

theorem RegisterClass.fit_fit (cls : RegisterClass) (v : BitVec 128) :
    cls.fit (cls.fit v) = cls.fit v := by
  have hle : cls.bits ≤ 128 := by cases cls <;> decide
  rw [fit, fit, BitVec.setWidth_setWidth_of_le _ hle, BitVec.setWidth_eq]

theorem WordState.fit_read (s : WordState) (r : Register) :
    r.registerClass.fit (s.read r) = s.read r := RegisterClass.fit_fit _ _

/-- The low word of what a register keeps comes from the low word. -/
theorem RegisterClass.fit_low (cls : RegisterClass) (v : BitVec 128) :
    (cls.fit v).setWidth 64 = (cls.fit ((v.setWidth 64).setWidth 128)).setWidth 64 := by
  refine BitVec.eq_of_getLsbD_eq fun i hi => ?_
  simp only [fit, BitVec.getLsbD_setWidth]
  have hi' : i < 128 := by omega
  simp [hi, hi']

/-- A register of at most 64 bits holds its low word. -/
theorem WordState.read_eq_word (s : WordState) {r : Register} (h : r.registerClass.bits ≤ 64) :
    s.read r = (s.word r).setWidth 128 := by
  refine BitVec.eq_of_getLsbD_eq fun i hi => ?_
  have hi' : i < 128 := hi
  simp only [WordState.word, WordState.read, RegisterClass.fit, BitVec.getLsbD_setWidth]
  by_cases hlt : i < 64
  · simp [hlt, hi']
  · simp [hlt, show ¬i < r.registerClass.bits by omega]

theorem read_emitMove {dst src : Register} {inst : SelectedInst} (h : emitMove dst src = some inst)
    (s : WordState) : ∃ s', machine.run [inst] s = some s' ∧
      s'.read = Function.update s.read dst (dst.registerClass.fit (s.read src)) := by
  unfold emitMove at h
  split at h
  case h_1 | h_2 | h_3 | h_4 =>
    cases h
    exact ⟨_, rfl, s.read_write dst _⟩
  case h_9 => cases h
  all_goals
    next hdst hsrc =>
    cases h
    have hword : s.read src = (s.word src).setWidth 128 := s.read_eq_word (by rw [hsrc]; decide)
    rw [hword]
    exact ⟨_, rfl, s.read_write dst _⟩

/-- A scratch register has the class of the register it is for, where that one
    can be copied. -/
theorem scratchClass_eq {dst src : Register} (h : (emitMove dst src).isSome = true) :
    scratchClass src.registerClass = src.registerClass := by
  unfold emitMove at h
  split at h
  case h_9 => cases h
  all_goals
    next hdst hsrc =>
    rw [hsrc]
    rfl

/-- Whether a copy is supported depends on the classes only. -/
theorem isSome_emitMove {dst dst' src src' : Register}
    (hdst : dst'.registerClass = dst.registerClass) (hsrc : src'.registerClass = src.registerClass) :
    (emitMove dst' src').isSome = (emitMove dst src).isSome := by
  unfold emitMove
  rw [hdst, hsrc]
  split <;> rfl

theorem isSome_emitMove_self {dst src : Register} (h : (emitMove dst src).isSome = true) :
    (emitMove src src).isSome = true := by
  unfold emitMove at h ⊢
  split at h
  case h_9 => cases h
  all_goals
    next hdst hsrc =>
    rw [hsrc]
    rfl

theorem fit_zero (cls : RegisterClass) : cls.fit 0 = 0 := by
  cases cls <;> rfl

/-- What clearing a register is. -/
def Clears (dst : Register) (m : Select target Unit) (sel : Selection target) : Prop :=
  ∃ sel' code, m sel = .ok ((), sel') ∧ sel.next ≤ sel'.next ∧ sel'.code = sel.code ++ code ∧
    ∀ s, ∃ s', machine.run code s = some s' ∧ s'.read dst = 0 ∧
      ∀ r, r ≠ dst → ¬FreshFrom target sel.next r → s'.read r = s.read r

/-- Zeroing a register through a fresh one. -/
theorem clears_through {dst : Register} {sel : Selection target} {inst : SelectedInst}
    {last : Register → Option SelectedInst} (hlast : last (.virtual sel.next .gpr64) = some inst)
    (hinst : ∀ s : WordState, s.word (.virtual sel.next .gpr64) = 0 →
      ∃ s', machine.run [inst] s = some s' ∧ s'.read = Function.update s.read dst 0) :
    Clears dst (clearThroughGpr last) sel := by
  have hzero : ∀ s : WordState, ∃ s₁ : WordState,
      machine.run [SelectedInst.plain (.movImm (.virtual sel.next .gpr64) 0)] s = some s₁ ∧
        s₁.read = Function.update s.read (.virtual sel.next .gpr64) 0 :=
    fun s => ⟨_, rfl, read_writeWord s rfl (BitVec.ofNat 64 0)⟩
  let zero : target.Inst := .plain (.movImm (.virtual sel.next .gpr64) 0)
  refine ⟨⟨sel.next + 1, (sel.code ++ [zero]) ++ ([inst] : List target.Inst)⟩, _, ?_, Nat.le_succ _,
    List.append_assoc .., fun s => ?_⟩
  · show (match last (.virtual sel.next .gpr64) with
      | some inst => emit (T := target) inst
      | none => throw _) _ = _
    rw [hlast]
    rfl
  · obtain ⟨s₁, hrun₁, hread₁⟩ := hzero s
    have hword : s₁.word (.virtual sel.next .gpr64) = 0 := by
      rw [WordState.word, hread₁, Function.update_self]
      rfl
    obtain ⟨s', hrun, hread⟩ := hinst s₁ hword
    refine ⟨s', Isel.run_append hrun₁ hrun, ?_, fun r hne hr => ?_⟩
    · rw [hread, Function.update_self]
    · have hne' : r ≠ .virtual sel.next .gpr64 := by
        rintro rfl
        exact hr ⟨sel.next, Nat.le_refl _, .inl rfl⟩
      rw [hread, Function.update_of_ne hne, hread₁, Function.update_of_ne hne']

/-- A floating-point register gets the zero of an integer register. -/
theorem clears_fpr {dst : Register} {sel : Selection target} {inst : SelectedInst}
    (hmove : emitMove dst (.virtual sel.next .gpr64) = some inst) :
    Clears dst (clearThroughGpr (emitMove dst)) sel := by
  refine clears_through hmove fun s hs => ?_
  obtain ⟨s', hrun, hread⟩ := read_emitMove hmove s
  refine ⟨s', hrun, ?_⟩
  have hzero : s.read (.virtual sel.next .gpr64) = 0 := by
    rw [s.read_eq_word (r := .virtual sel.next .gpr64) (Nat.le_refl 64), hs]
    rfl
  rw [hread, hzero, fit_zero]

theorem clears_simd (dst : Register) (sel : Selection target) :
    Clears dst (clearThroughGpr fun zero => some (.unary .dupV2dGpr dst zero)) sel := by
  refine clears_through rfl fun s hs => ?_
  refine ⟨s.write dst (s.word (.virtual sel.next .gpr64) ++ s.word (.virtual sel.next .gpr64)),
    rfl, ?_⟩
  rw [s.read_write, hs]
  exact congrArg (Function.update s.read dst) (fit_zero _)

theorem clears_word (dst : Register) (sel : Selection target) :
    Clears dst (emit (T := target) (.plain (.movImm dst 0))) sel := by
  refine ⟨_, _, rfl, Nat.le_refl _, rfl, fun (s : WordState) => ?_⟩
  have hread := s.read_write dst ((BitVec.ofNat 64 0).setWidth 128)
  refine ⟨s.write dst ((BitVec.ofNat 64 0).setWidth 128), rfl, ?_, fun r hne _ => ?_⟩
  · rw [hread, Function.update_self]
    exact fit_zero _
  · rw [hread, Function.update_of_ne hne]

/-- Clearing never fails. -/
theorem clears_emitClear (dst : Register) (sel : Selection target) :
    Clears dst (emitClear dst) sel := by
  unfold emitClear
  cases hcls : dst.registerClass
  case fpr64 =>
    have hmove : emitMove dst (.virtual sel.next .gpr64) = some (.unary .fmovDX dst
        (.virtual sel.next .gpr64)) := by
      unfold emitMove
      rw [hcls]
      rfl
    exact clears_fpr hmove
  case fpr32 =>
    have hmove : emitMove dst (.virtual sel.next .gpr64) = some (.unary .fmovSW dst
        (.virtual sel.next .gpr64)) := by
      unfold emitMove
      rw [hcls]
      rfl
    exact clears_fpr hmove
  case simd128 => exact clears_simd dst sel
  all_goals exact clears_word dst sel

theorem scratch_fit {r : Register} {n : Nat} {inst : SelectedInst}
    (h : emitMove (.virtual n (scratchClass r.registerClass)) r = some inst) (s : WordState) :
    (scratchClass r.registerClass).fit (s.read r) = s.read r := by
  rw [scratchClass_eq (Option.isSome_iff_exists.mpr ⟨inst, h⟩), s.fit_read]

theorem scratch_move {dst r : Register} (h : (emitMove dst r).isSome = true) (n : Nat) :
    (emitMove (.virtual n (scratchClass r.registerClass)) r).isSome = true ∧
      (emitMove dst (.virtual n (scratchClass r.registerClass))).isSome = true := by
  have hclass : (Register.virtual n (scratchClass r.registerClass)).registerClass =
      r.registerClass := scratchClass_eq h
  exact ⟨(isSome_emitMove hclass rfl).trans (isSome_emitMove_self h),
    (isSome_emitMove rfl hclass).trans h⟩

theorem copiesLaws : copies.Laws machine fun r => r.registerClass.fit where
  scratch_virtual r n := by
    show Isel.IsVirtual target n (.virtual n (scratchClass r.registerClass))
    cases r.registerClass
    case fpr64 => exact .inr ⟨fpFile, rfl, .inr ⟨.f64, rfl⟩⟩
    case fpr32 => exact .inr ⟨fpFile, rfl, .inr ⟨.f32, rfl⟩⟩
    case simd128 => exact .inr ⟨fpFile, rfl, .inl rfl⟩
    all_goals exact .inl rfl
  move h s := read_emitMove h s
  scratch_fit h s := scratch_fit h s
  scratch_move h n := scratch_move h n
  clear := clears_emitClear
  fit_read s r := s.fit_read r
  fit_word r v := r.registerClass.fit_low v

end Crabbit.Aarch64
