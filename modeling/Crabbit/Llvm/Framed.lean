/-
  Crabbit.Llvm.Framed

  Executions of a function in SSA form, whatever its operations compute: a
  step only defines the results of the operation at hand, or the parameters of
  the block it branches to.

  A fact about a value and the values its definition uses, true when the value
  is defined, stays true for as long as the value is available.
-/

import Crabbit.Llvm.Availability

namespace Crabbit.Llvm

open Crabbit.Lib Region

/-- Executions that leave alone what the operation at hand does not define. -/
structure Framed (g : Region) where
  State : Type
  Data : Type
  block : State → Nat
  rest : State → List Op
  env : State → Value → Option Data
  Entry : State → Prop
  Step : State → State → Prop
  entry : ∀ {s}, Entry s → block s = 0 ∧ rest s = (g.block 0).ops
  frame : ∀ {s t}, Step s t → ∃ op ops, rest s = op :: ops ∧
    ((op.succs = [] ∧ block t = block s ∧ rest t = ops ∧
        ∀ v, v ∉ op.results → env t v = env s v) ∨
      ∃ d ∈ op.succs, block t = d.dest ∧ rest t = (g.block d.dest).ops ∧
        ∀ v, v ∉ op.results → v ∉ (g.block d.dest).params → env t v = env s v)

/-- A branch is the end of its block and leads along an edge. -/
theorem Region.Ssa.edge {g : Region} (hssa : g.Ssa) {b : Nat} {done rest : List Op} {op : Op}
    (hops : (g.block b).ops = done ++ op :: rest) {d : Successor} (hd : d ∈ op.succs) :
    rest = [] ∧ g.Edge b d.dest := by
  have hrest : rest = [] := by
    by_contra hne
    rw [hssa.succs_nil hops hne] at hd
    exact absurd hd List.not_mem_nil
  rw [hrest] at hops
  exact ⟨hrest, (mem_succs_last hops _).mpr ⟨d, hd, rfl⟩⟩

namespace Framed

variable {g : Region} (F : Framed g)

/-- A state some execution gets to. -/
inductive Reachable : F.State → Prop where
  | entry {s : F.State} (h : F.Entry s) : Reachable s
  | step {s t : F.State} (h : Reachable s) (hstep : F.Step s t) : Reachable t

variable {F} {s : F.State}

/-- Control is somewhere in a block it can get to. -/
theorem Reachable.located (hssa : g.Ssa) (h : F.Reachable s) :
    ∃ done, (g.block (F.block s)).ops = done ++ F.rest s ∧ g.Reached (F.block s) := by
  induction h with
  | entry h =>
    obtain ⟨hblock, hrest⟩ := F.entry h
    rw [hblock, hrest]
    exact ⟨[], rfl, _, .entry⟩
  | @step s t h hstep ih =>
    obtain ⟨done, hops, hreached⟩ := ih
    obtain ⟨op, ops, hrest, ⟨-, hblock, hrest', -⟩ | ⟨d, hd, hblock, hrest', -⟩⟩ := F.frame hstep
    · rw [hblock, hrest']
      exact ⟨done ++ [op], by rw [hops, hrest, List.append_assoc]; rfl, hreached⟩
    · rw [hblock, hrest']
      rw [hrest] at hops
      exact ⟨[], rfl, hreached.step (hssa.edge hops hd).2⟩

/-- `φ` only looks at the given values. -/
def Local (vs : List Value) (φ : (Value → Option F.Data) → Prop) : Prop :=
  ∀ env env', (∀ v ∈ vs, env' v = env v) → φ env → φ env'

/-- What holds of a value and of others that were available at its definition,
    when the value is defined, holds for as long as it is available: on no way
    from the definition to such a place is one of the others defined anew. -/
theorem Reachable.stable (hssa : g.Ssa) {c : Nat} {cdone crest : List Op} {defOp : Op}
    (hdef : (g.block c).ops = cdone ++ defOp :: crest) {r : Value} (hr : r ∈ defOp.results)
    (hsuccs : defOp.succs = []) {ws : List Value} (hws : ∀ w ∈ ws, g.Available c cdone w)
    {φ : (Value → Option F.Data) → Prop} (hlocal : F.Local (r :: ws) φ)
    (hnew : ∀ s t ops, F.Reachable s → F.rest s = defOp :: ops → F.Step s t → φ (F.env t))
    (h : F.Reachable s) {done : List Op} (hops : (g.block (F.block s)).ops = done ++ F.rest s)
    (havail : g.Available (F.block s) done r) : φ (F.env s) := by
  have hrc := mem_defs_of_result hdef hr
  induction h generalizing done with
  | entry h =>
    -- Nothing but the parameters is available at the entry.
    obtain ⟨hblock, hrest⟩ := F.entry h
    rw [hblock, hrest] at hops
    obtain rfl : done = [] := List.self_eq_append_left.mp hops
    rw [hblock] at havail
    rcases havail with hp | hd | ⟨a, hne, hdom, -⟩
    · obtain rfl : c = 0 := hssa.block_unique hrc (List.mem_append_left _ hp)
      exact absurd hp (hssa.not_mem_done hdef hr).1
    · exact absurd hd List.not_mem_nil
    · exact absurd hdom.eq_entry hne
  | @step s t h hstep ih =>
    obtain ⟨sdone, hsops, hreached⟩ := h.located hssa
    obtain ⟨op, ops, hrest, hcases⟩ := F.frame hstep
    rw [hrest] at hsops
    -- An operation that is not the definition defines none of the values.
    have hkept : r ∉ op.results → g.Available (F.block s) sdone r →
        ∀ w ∈ r :: ws, w ∉ op.results := by
      intro hrop hrs w hw
      rcases List.mem_cons.mp hw with rfl | hw
      · exact hrop
      · have hwavail := hssa.available_trans hdef hr (hws w hw) hsops hreached hrs
        exact fun hwop => hssa.not_available hsops hwop hwavail
    have hbefore : g.Available (F.block s) sdone r → φ (F.env s) := fun hrs =>
      ih (by rw [hsops, hrest]) hrs
    -- The definition is where it is.
    have hisDef : r ∈ op.results → op = defOp := fun hrop =>
      (hssa.op_unique (mem_ops_of_block (by rw [hdef]; simp))
        (mem_ops_of_block (by rw [hsops]; simp)) hr hrop).symm
    rcases hcases with ⟨-, hblock, hrest', hframe⟩ | ⟨d, hd, hblock, hrest', hframe⟩
    · rw [hblock, hrest', hsops] at hops
      rw [hblock] at havail
      obtain rfl : done = sdone ++ [op] := by
        have : done ++ ops = (sdone ++ [op]) ++ ops := by
          rw [← hops, List.append_assoc]
          rfl
        exact List.append_cancel_right this
      by_cases hrop : r ∈ op.results
      · obtain rfl := hisDef hrop
        exact hnew s t ops h hrest hstep
      · have hrs := havail.of_append hrop
        exact hlocal _ _ (fun w hw => hframe w (hkept hrop hrs w hw)) (hbefore hrs)
    · rw [hblock, hrest'] at hops
      obtain rfl : done = [] := List.self_eq_append_left.mp hops
      obtain ⟨rfl, hedge⟩ := hssa.edge hsops hd
      rw [hblock] at havail
      have hrop : r ∉ op.results := by
        intro hrop
        rw [hisDef hrop, hsuccs] at hd
        exact absurd hd List.not_mem_nil
      have hparams (w : Value) (hw : g.Available c cdone w) :=
        hssa.not_param_of_available hdef hr hw (hreached.step hedge) havail
      have hrs : g.Available (F.block s) sdone r := by
        obtain ⟨hne, hdom⟩ : c ≠ d.dest ∧ Dominates g.Edge 0 c d.dest := by
          rcases havail with hp | hd' | ⟨a, hne, hdom, ha⟩
          · obtain rfl := hssa.block_unique hrc (List.mem_append_left _ hp)
            exact absurd hp (hssa.not_mem_done hdef hr).1
          · exact absurd hd' List.not_mem_nil
          · obtain rfl := hssa.block_unique hrc ha
            exact ⟨hne, hdom⟩
        apply Available.of_append _ hrop
        rw [← hsops]
        exact available_end hdef hr hedge hne hdom
      have hrp : r ∉ (g.block d.dest).params := by
        intro hp
        obtain rfl := hssa.block_unique hrc (List.mem_append_left _ hp)
        exact (hssa.not_mem_done hdef hr).1 hp
      apply hlocal _ _ _ (hbefore hrs)
      intro w hw
      apply hframe w (hkept hrop hrs w hw)
      rcases List.mem_cons.mp hw with rfl | hw
      · exact hrp
      · exact (hparams w (hws w hw)).2.1

end Framed

end Crabbit.Llvm
