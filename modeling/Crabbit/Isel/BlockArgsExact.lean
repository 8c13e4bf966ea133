/-
  Crabbit.Isel.BlockArgsExact

  Block arguments on both CPU back ends, from any state of the machine: the
  copies of an edge happen at once.
-/

import Crabbit.Aarch64.EdgeCopies
import Crabbit.X86.EdgeCopies

namespace Crabbit.Isel

open Crabbit.Lib
open Crabbit.Llvm (Value)

variable {T : Target}

/-- The copies of a branch edge are a parallel assignment.  `fit` is what a
    register keeps of a value: all of it, for a register of the same class. -/
structure BlockArgsExact (M : Machine T) (L : Lowering T) (C : Copies T)
    (fit : T.Register → BitVec 128 → BitVec 128) : Prop where
  /-- Any copies between registers that can be copied, with distinct destinations:
      each destination holds what its source held, and zero where it has none. -/
  copies : ∀ (pending : List (Copy T.Register)) (sel : Selection T) (s : M.State),
    OldCopies T sel.next pending → (pending.map Prod.fst).Nodup →
    (∀ d r, (d, some r) ∈ pending → (C.move d r).isSome = true) →
    ∃ sel' code s', C.emitCopies pending sel = .ok ((), sel') ∧ sel'.code = sel.code ++ code ∧
      M.run code s = some s' ∧
      Assigns fit 0 (fun r => ¬FreshFrom T sel.next r) (M.read s) (M.read s') pending
  /-- The whole edge: each leaf of the operands arrives in the register of the
      block argument it is for. -/
  edge : ∀ (values : Value → Option (LoweredValue T.Register)) (destArgs args : List Value)
    (dsts : List T.Register) (sel sel' : Selection T) (s : M.State),
    (∀ arg ∈ args ++ destArgs, ∀ v, values arg = some v → ∀ r ∈ v.registers,
      ¬FreshFrom T sel.next r) →
    destRegisters values destArgs = some dsts → dsts.Nodup →
    L.emitBlockArgCopies C values destArgs args sel = .ok ((), sel') →
    ∃ code s' leaves, sel'.code = sel.code ++ code ∧ M.run code s = some s' ∧
      L.incomingLeaves M s values (args.zip destArgs) = .ok leaves ∧
      List.Forall₂ (fun d leaf => leaf.ArrivesIn M fit s' d) dsts leaves ∧
      ∀ r, ¬FreshFrom T sel.next r → r ∉ dsts → M.read s' r = M.read s r

theorem blockArgsExact {M : Machine T} {L : Lowering T} {C : Copies T}
    {fit : T.Register → BitVec 128 → BitVec 128} (hwords : ∀ op, op ≠ .asr → M.has op)
    (hext : L.SignExtends M) (hC : C.Laws M fit) : BlockArgsExact M L C fit where
  copies pending sel s hold hnodup hmoves := by
    obtain ⟨sel', hsel'⟩ := exists_emitCopies hC hmoves
    obtain ⟨code, s', hcode, hrun, hassigns⟩ := emitCopies_assigns hC hold hnodup hsel' s
    exact ⟨sel', code, s', hsel', hcode, hrun, hassigns⟩
  edge _ _ _ _ _ _ s hold hdsts hnodup h :=
    emitBlockArgCopies_sound hwords hext hC s hold hdsts hnodup h

/-- Block arguments are copied in parallel on both back ends. -/
theorem block_args_exact :
    BlockArgsExact Aarch64.machine Aarch64.lowering Aarch64.copies
      (fun r => r.registerClass.fit) ∧
    BlockArgsExact X86.machine X86.lowering X86.copies X86.fitWord :=
  ⟨blockArgsExact (fun _ _ => trivial) Aarch64.signExtends Aarch64.copiesLaws,
    blockArgsExact (fun _ hop => hop) X86.signExtends X86.copiesLaws⟩

/-- Registers that hold one and two. -/
def oneAndTwo : X86.WordState where
  regs r := if r = X86.RAX then 1 else 2
  flags := none
  literals _ := 0

/-- Two registers swap their values. -/
theorem block_args_exact_swap : ∃ sel' code s',
    X86.copies.emitCopies [(X86.RAX, some X86.RDX), (X86.RDX, some X86.RAX)] ⟨0, []⟩ =
      .ok ((), sel') ∧ sel'.code = [] ++ code ∧ X86.machine.run code oneAndTwo = some s' ∧
      s'.read X86.RAX = 2 ∧ s'.read X86.RDX = 1 := by
  have hphysical : ∀ i, ¬FreshFrom X86.target 0 (X86.Register.physical i) := by
    rintro i ⟨j, -, h⟩
    cases X86.isVirtual_id h
  have hold : OldCopies X86.target 0 [(X86.RAX, some X86.RDX), (X86.RDX, some X86.RAX)] := by
    refine List.forall_mem_cons.mpr ⟨⟨hphysical _, fun r hr => ?_⟩,
      List.forall_mem_singleton.mpr ⟨hphysical _, fun r hr => ?_⟩⟩
    · exact Option.some.inj hr ▸ hphysical _
    · exact Option.some.inj hr ▸ hphysical _
  obtain ⟨sel', code, s', hsel', hcode, hrun, hassigns⟩ :=
    block_args_exact.2.copies _ ⟨0, []⟩ oneAndTwo hold (by decide) fun _ _ _ => rfl
  refine ⟨sel', code, s', hsel', hcode, hrun, ?_, ?_⟩
  · exact (hassigns.copied X86.RAX X86.RDX List.mem_cons_self).trans (by decide)
  · exact (hassigns.copied X86.RDX X86.RAX (List.mem_cons_of_mem _ List.mem_cons_self)).trans
      (by decide)

end Crabbit.Isel
