/-
  Crabbit.Llvm.SimplifyCfgSound

  `llvm-simplify-cfg` keeps what a function does: its rounds do, one part
  after the other.
-/

import Crabbit.Llvm.CfgBypass

namespace Crabbit.Llvm

open Crabbit.Lib

namespace Region

variable {A : CfgTable} {g : Region}

/-! ## Rounds -/

theorem Wf.simplifyRound (hg : g.Wf A) : Simplified A g (g.simplifyRound A).1 := by
  have hfold := hg.foldConstantBranches
  obtain ⟨hprune, hpruned⟩ := hfold.wf.removeUnreachableBlocks
  -- What is merged can be reached.
  obtain ⟨hmerge, -⟩ := hprune.wf.mergeStraightLineBlocks hpruned
  have hbypass := hmerge.wf.bypassForwardingBlocks
  exact ((hfold.trans hprune).trans hmerge).trans hbypass

theorem Wf.simplifyRounds (n : Nat) (hg : g.Wf A) : Simplified A g (simplifyRounds A n g) := by
  induction n generalizing g with
  | zero => exact .refl hg
  | succ n ih =>
    have hround := hg.simplifyRound
    unfold Region.simplifyRounds
    split_ifs
    · exact hround.trans (ih hround.wf)
    · exact hround

/-- From every entry the simplified function executes the operations that do
    not branch in the same order and on the same values, and ends as the
    function does; its branches pass as many arguments as their targets have
    parameters, and use nothing that is not defined on every way there.  The
    merges of a round come to an end by themselves (`mergeStraightLineBlocks`
    erases a branch each time), the rounds are limited. -/
theorem simplifyCfg_preserves (A : CfgTable) (g : Region) (hg : g.Wf A) :
    Behaves A g (g.simplifyCfg A) ∧
    (∀ op ∈ (g.simplifyCfg A).ops, ∀ t ∈ op.succs,
      t.args.length = ((g.simplifyCfg A).block t.dest).params.length) ∧
    (g.simplifyCfg A).UsesDominated := by
  have h : Simplified A g (g.simplifyCfg A) := hg.simplifyRounds maxIterations
  refine ⟨h.behaves, fun op hop t ht => ?_, h.wf.uses⟩
  have htyped := congrArg List.length (h.wf.typed op hop t ht)
  rwa [List.length_map, List.length_map] at htyped

end Region

/-! ## Two forwarding blocks -/

namespace Diamond

def c : Value := ⟨0, .i 1⟩
def t : Value := ⟨1, .i 1⟩
def f : Value := ⟨2, .i 1⟩
def r : Value := ⟨3, .i 1⟩

/-- Both sides of the branch pass the condition on to the return. -/
def region : Region := ⟨[
  ⟨[c], [.generic .condBr 0 [] [c] [⟨1, [c]⟩, ⟨2, [c]⟩]]⟩,
  ⟨[t], [.generic .br 0 [] [] [⟨3, [t]⟩]]⟩,
  ⟨[f], [.generic .br 0 [] [] [⟨3, [f]⟩]]⟩,
  ⟨[r], [.generic .ret 0 [] [r] []]⟩]⟩

/-- No attributes matter. -/
def table : CfgTable := ⟨fun _ => none, fun _ => .eq⟩

theorem region_wf : region.Wf table := by
  refine ⟨by decide, Region.usesDominated_of_local (by decide), ?_, by decide, ?_, ?_⟩
  · intro b hb
    have hssa : region.Ssa := by decide
    have hlt : b < region.blocks.length := by
      obtain ⟨visited, hwalk⟩ := hb
      cases hwalk with
      | entry => exact Nat.succ_pos _
      | step _ he => exact hssa.succs_lt he
    have hall : ∀ block ∈ region.blocks, block.ops ≠ [] := by decide
    exact hall _ (Region.block_mem hlt)
  · intro op hop cond t f hbranch
    have hall : ∀ op ∈ region.ops, ∀ b ∈ op.branch?, ∀ v ∈ b.operands, v.ty.intWidth = some 1 := by
      decide
    exact hall op hop _ hbranch cond List.mem_cons_self
  · intro op hop c hc
    have hall : ∀ op ∈ region.ops, op.const? table = none := by decide
    rw [hall op hop] at hc
    cases hc

end Diamond

open Diamond in
theorem simplifyCfg_preserves_diamond : Region.Behaves table region (region.simplifyCfg table) :=
  (Region.simplifyCfg_preserves table region region_wf).1

end Crabbit.Llvm
