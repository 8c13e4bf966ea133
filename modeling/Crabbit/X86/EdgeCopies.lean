/-
  Crabbit.X86.EdgeCopies

  Copies between registers on x86-64 (the loop of `emit_block_arg_copies` of
  `passes/x86_64_darwin/isel_control_flow.rs`): all registers are integer
  registers.
-/

import Crabbit.Isel.BlockArgsSound
import Crabbit.X86.Lowering

namespace Crabbit.X86

open Crabbit.Isel (Copies emit)

def copies : Copies target where
  scratch _ n := .virtualGpr n
  scratch_ne _ n h := absurd (Register.virtual.inj h).1 (Nat.ne_of_lt (Nat.lt_succ_self n))
  move dst src := some (.plain (.mov dst src))
  clear dst := emit (T := target) (.plain (.movImm dst 0))

theorem WordState.read_eq_word (s : WordState) (r : Register) :
    s.read r = (s.word r).setWidth 128 := by
  have hword : s.word r = s.regs r := by
    rw [word, read, BitVec.setWidth_setWidth_of_le _ (by decide), BitVec.setWidth_eq]
  rw [hword, read]

/-- Registers hold words. -/
def fitWord (_ : Register) (v : BitVec 128) : BitVec 128 := (v.setWidth 64).setWidth 128

theorem fitWord_read (s : WordState) (d r : Register) : fitWord d (s.read r) = s.read r :=
  (s.read_eq_word r).symm

/-- Clearing a register. -/
theorem run_clear (dst : Register) (s : WordState) : ∃ s' : WordState,
    machine.run [SelectedInst.plain (.movImm dst 0)] s = some s' ∧ s'.read dst = 0 ∧
      ∀ r, r ≠ dst → s'.read r = s.read r := by
  have hread := s.read_setReg dst (BitVec.ofNat 64 0)
  refine ⟨s.setReg dst (BitVec.ofNat 64 0), rfl, ?_, fun r hne => ?_⟩
  · rw [hread, Function.update_self]
    rfl
  · rw [hread, Function.update_of_ne hne]

theorem copiesLaws : copies.Laws machine fitWord where
  scratch_virtual _ _ := .inl rfl
  move := by
    intro d r inst h s
    cases h
    refine ⟨_, rfl, ?_⟩
    exact WordState.read_setReg s d (WordState.word s r)
  scratch_fit _ s := fitWord_read s _ _
  scratch_move _ _ := ⟨rfl, rfl⟩
  clear dst sel := by
    refine ⟨_, _, rfl, Nat.le_refl _, rfl, fun s => ?_⟩
    obtain ⟨s', hrun, hzero, hframe⟩ := run_clear dst s
    exact ⟨s', hrun, hzero, fun r hne _ => hframe r hne⟩
  fit_read s r := fitWord_read s r r
  fit_word _ v := by
    have hlow : ∀ w : BitVec 64, (w.setWidth 128).setWidth 64 = w := fun w => by
      rw [BitVec.setWidth_setWidth_of_le _ (by decide), BitVec.setWidth_eq]
    show ((v.setWidth 64).setWidth 128).setWidth 64 =
      ((((v.setWidth 64).setWidth 128).setWidth 64).setWidth 128).setWidth 64
    rw [hlow, hlow]

end Crabbit.X86
