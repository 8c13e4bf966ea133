/-
  Crabbit.Llvm.BackwardFixpoint

  The backward bit-set fixpoint of the mid-end's dataflow analyses: out-sets
  from the successors' in-sets, in-sets from the out-sets by a transfer, and
  rounds over the blocks, last one first, until no in-set changes.

  A bit set is a `Finset`.  The in-sets evolve as in the round-robin solver
  (`round_eq_solveRound`), which gives the equations (`fixpoint_isSolution`)
  and, for a monotone transfer over finitely many bits, termination
  (`exists_fixpoint`).
-/

import Crabbit.Lib.RoundRobin
import Mathlib.Data.Finset.Card
import Mathlib.Data.Finset.Lattice.Basic
import Mathlib.Data.List.Range
import Mathlib.Data.Nat.Cast.Basic

namespace Crabbit.Llvm

open Crabbit.Lib

section Fixpoint

variable {α : Type*} [DecidableEq α]

/-- The equations of a backward problem over the blocks `0, 1, ...`. -/
structure BackwardProblem (α : Type*) where
  succs : Nat → List Nat
  /-- The out-set of a block without successors. -/
  boundary : Nat → Finset α
  transfer : Nat → Finset α → Finset α

namespace BackwardProblem

variable (p : BackwardProblem α)

/-- The out-set of a block, given the in-sets. -/
def outOf (liveIn : Nat → Finset α) (b : Nat) : Finset α :=
  (p.succs b).foldl (fun out s => out ∪ liveIn s)
    (if p.succs b = [] then p.boundary b else ∅)

/-- The two arrays of the solver and the flag of the running round. -/
structure State (α : Type*) where
  liveIn : Nat → Finset α
  liveOut : Nat → Finset α
  changed : Bool

/-- The sets before the first round. -/
def init : State α where
  liveOut b := if p.succs b = [] then p.boundary b else ∅
  liveIn b := p.transfer b (if p.succs b = [] then p.boundary b else ∅)
  changed := false

/-- Recompute one block; the in-set only when the out-set moved. -/
def visit (s : State α) (b : Nat) : State α :=
  let out := p.outOf s.liveIn b
  if out ≠ s.liveOut b then
    let liveOut := Function.update s.liveOut b out
    let new_in := p.transfer b out
    if new_in ≠ s.liveIn b then ⟨Function.update s.liveIn b new_in, liveOut, true⟩
    else ⟨s.liveIn, liveOut, s.changed⟩
  else s

/-- One round over the given blocks. -/
def round (order : List Nat) (s : State α) : State α :=
  order.foldl p.visit ⟨s.liveIn, s.liveOut, false⟩

def loop (order : List Nat) : Nat → State α → Option (State α)
  | 0, _ => none
  | fuel + 1, s =>
    if (p.round order s).changed then loop order fuel (p.round order s)
    else some (p.round order s)

/-- `backward_bitset_fixpoint` over `n` blocks: the in-sets and the
    out-sets. -/
def fixpoint (n fuel : Nat) : Option ((Nat → Finset α) × (Nat → Finset α)) :=
  (p.loop (List.range n).reverse fuel p.init).map fun s => (s.liveIn, s.liveOut)

/-! ## The in-sets follow the round-robin solver -/

/-- The equation of a block with the out-set substituted. -/
def equation (liveIn : Nat → Finset α) (b : Nat) : Finset α := p.transfer b (p.outOf liveIn b)

/-- Every in-set is what the transfer computes from the out-set beside it. -/
def Consistent (s : State α) : Prop := ∀ b, s.liveIn b = p.transfer b (s.liveOut b)

variable {p}

omit [DecidableEq α] in
theorem consistent_init : p.Consistent p.init := fun _ => rfl

theorem visit_spec {s : State α} (h : p.Consistent s) (b : Nat) :
    p.Consistent (p.visit s b) ∧
    ((p.visit s b).liveIn, (p.visit s b).changed) = visitNode p.equation (s.liveIn, s.changed) b ∧
    (p.visit s b).liveOut = Function.update s.liveOut b (p.outOf s.liveIn b) := by
  by_cases hout : p.outOf s.liveIn b = s.liveOut b
  · -- The out-set stands, so the in-set already satisfies its equation.
    have heq : p.equation s.liveIn b = s.liveIn b := by
      unfold equation
      rw [hout, h b]
    have hv : p.visit s b = s := by
      unfold visit
      exact if_neg (not_not_intro hout)
    have hn : visitNode p.equation (s.liveIn, s.changed) b = (s.liveIn, s.changed) := if_pos heq
    rw [hv, hn, hout, Function.update_eq_self]
    exact ⟨h, rfl, rfl⟩
  by_cases hin : p.equation s.liveIn b = s.liveIn b
  · have hv : p.visit s b
        = ⟨s.liveIn, Function.update s.liveOut b (p.outOf s.liveIn b), s.changed⟩ := by
      unfold visit
      rw [if_pos hout]
      exact if_neg (not_not_intro hin)
    have hn : visitNode p.equation (s.liveIn, s.changed) b = (s.liveIn, s.changed) := if_pos hin
    rw [hv, hn]
    refine ⟨fun c => ?_, rfl, rfl⟩
    show s.liveIn c = p.transfer c (Function.update s.liveOut b (p.outOf s.liveIn b) c)
    by_cases hc : c = b
    · subst hc
      rw [Function.update_self]
      exact hin.symm
    · rw [Function.update_of_ne hc]
      exact h c
  · have hv : p.visit s b = ⟨Function.update s.liveIn b (p.equation s.liveIn b),
        Function.update s.liveOut b (p.outOf s.liveIn b), true⟩ := by
      unfold visit
      rw [if_pos hout]
      exact if_pos hin
    have hn : visitNode p.equation (s.liveIn, s.changed) b
        = (Function.update s.liveIn b (p.equation s.liveIn b), true) := if_neg hin
    rw [hv, hn]
    refine ⟨fun c => ?_, rfl, rfl⟩
    show Function.update s.liveIn b (p.equation s.liveIn b) c
      = p.transfer c (Function.update s.liveOut b (p.outOf s.liveIn b) c)
    by_cases hc : c = b
    · subst hc
      rw [Function.update_self, Function.update_self]
      rfl
    · rw [Function.update_of_ne hc, Function.update_of_ne hc]
      exact h c

theorem foldl_visit_spec (order : List Nat) {s : State α} (h : p.Consistent s) :
    p.Consistent (order.foldl p.visit s) ∧
    ((order.foldl p.visit s).liveIn, (order.foldl p.visit s).changed)
      = order.foldl (visitNode p.equation) (s.liveIn, s.changed) := by
  induction order generalizing s with
  | nil => exact ⟨h, rfl⟩
  | cons b order ih =>
    obtain ⟨h', hproj, -⟩ := visit_spec h b
    obtain ⟨h'', hproj'⟩ := ih h'
    rw [List.foldl_cons, List.foldl_cons, ← hproj]
    exact ⟨h'', hproj'⟩

theorem round_eq_solveRound (order : List Nat) {s : State α} (h : p.Consistent s) :
    p.Consistent (p.round order s) ∧
    ((p.round order s).liveIn, (p.round order s).changed)
      = solveRound p.equation order s.liveIn :=
  foldl_visit_spec order (s := ⟨s.liveIn, s.liveOut, false⟩) h

/-- A round that reports no change leaves every visited out-set equal to the
    join of the in-sets. -/
theorem foldl_visit_liveOut (order : List Nat) {s : State α} (h : p.Consistent s)
    (hend : (order.foldl p.visit s).changed = false) :
    (order.foldl p.visit s).liveIn = s.liveIn ∧
    (∀ b ∈ order, (order.foldl p.visit s).liveOut b = p.outOf s.liveIn b) ∧
    ∀ b ∉ order, (order.foldl p.visit s).liveOut b = s.liveOut b := by
  have hproj := (foldl_visit_spec order h).2
  have hfalse : (order.foldl (visitNode p.equation) (s.liveIn, s.changed)).2 = false := by
    rw [← hproj]
    exact hend
  have hin := (foldl_visitNode_false order _ hfalse).1
  refine ⟨?_, ?_⟩
  · rw [hin] at hproj
    exact congrArg Prod.fst hproj
  induction order generalizing s with
  | nil => exact ⟨fun b hb => absurd hb (List.not_mem_nil), fun _ _ => rfl⟩
  | cons b order ih =>
    obtain ⟨h', hvisit, hout⟩ := visit_spec h b
    rw [List.foldl_cons] at hend ⊢
    have hfalse' := hfalse
    rw [List.foldl_cons, ← hvisit] at hfalse'
    have hproj' := (foldl_visit_spec order h').2
    have hin' := (foldl_visitNode_false order _ hfalse').1
    obtain ⟨hmem, hnot⟩ := ih h' hend hproj' hfalse' hin'
    -- The visit of `b` changed no in-set either.
    have hsame : (p.visit s b).liveIn = s.liveIn := by
      have h1 := (foldl_visitNode_false (b :: order) _ hfalse).2 b List.mem_cons_self
      have h2 : visitNode p.equation (s.liveIn, s.changed) b = (s.liveIn, s.changed) := if_pos h1
      rw [h2] at hvisit
      exact congrArg Prod.fst hvisit
    rw [hsame] at hmem
    constructor
    · intro c hc
      by_cases hco : c ∈ order
      · exact hmem c hco
      · have hcb : c = b := by
          rcases List.mem_cons.mp hc with hcb | hco'
          · exact hcb
          · exact absurd hco' hco
        rw [hnot c hco, hout, hcb, Function.update_self]
    · intro c hc
      rw [List.mem_cons, not_or] at hc
      rw [hnot c hc.2, hout, Function.update_of_ne hc.1]

/-- The loop ends with the solver's in-sets and their joins. -/
theorem loop_spec {order : List Nat} {fuel : Nat} {s s' : State α} (h : p.Consistent s)
    (hloop : p.loop order fuel s = some s') :
    solve p.equation order fuel s.liveIn = some s'.liveIn ∧
    p.Consistent s' ∧ ∀ b ∈ order, s'.liveOut b = p.outOf s'.liveIn b := by
  induction fuel generalizing s with
  | zero => cases hloop
  | succ fuel ih =>
    obtain ⟨h', hround⟩ := round_eq_solveRound order h
    rw [loop] at hloop
    rw [solve, ← hround]
    by_cases hch : (p.round order s).changed = true
    · rw [if_pos hch] at hloop
      rw [hch]
      exact ih h' hloop
    · rw [if_neg hch] at hloop
      obtain rfl := Option.some.inj hloop
      have hfalse : (p.round order s).changed = false := Bool.eq_false_of_not_eq_true hch
      have hs : p.Consistent (⟨s.liveIn, s.liveOut, false⟩ : State α) := h
      obtain ⟨hin, hmem, -⟩ := foldl_visit_liveOut order hs hfalse
      refine ⟨by rw [hfalse], h', fun b hb => ?_⟩
      show (p.round order s).liveOut b = p.outOf (p.round order s).liveIn b
      rw [show (p.round order s).liveIn = s.liveIn from hin]
      exact hmem b hb

/-- Conversely, the loop ends when the solver does. -/
theorem exists_loop {order : List Nat} {fuel : Nat} {s : State α} (h : p.Consistent s)
    (hsolve : ∃ result, solve p.equation order fuel s.liveIn = some result) :
    ∃ s', p.loop order fuel s = some s' := by
  induction fuel generalizing s with
  | zero =>
    obtain ⟨result, hresult⟩ := hsolve
    cases hresult
  | succ fuel ih =>
    obtain ⟨h', hround⟩ := round_eq_solveRound order h
    rw [loop]
    by_cases hch : (p.round order s).changed = true
    · rw [if_pos hch]
      rw [solve, ← hround, hch] at hsolve
      exact ih h' hsolve
    · rw [if_neg hch]
      exact ⟨_, rfl⟩

/-! ## What the fixpoint satisfies -/

/-- The equations of the blocks below `n`. -/
structure IsSolution (p : BackwardProblem α) (n : Nat) (liveIn liveOut : Nat → Finset α) :
    Prop where
  out_eq : ∀ b < n, liveOut b = p.outOf liveIn b
  in_eq : ∀ b, liveIn b = p.transfer b (liveOut b)

theorem fixpoint_isSolution {n fuel : Nat} {liveIn liveOut : Nat → Finset α}
    (h : p.fixpoint n fuel = some (liveIn, liveOut)) : IsSolution p n liveIn liveOut := by
  unfold fixpoint at h
  obtain ⟨s, hs, heq⟩ := Option.map_eq_some_iff.mp h
  obtain ⟨-, hcons, hout⟩ := loop_spec consistent_init hs
  cases heq
  exact ⟨fun b hb => hout b (List.mem_reverse.mpr (List.mem_range.mpr hb)), hcons⟩

theorem mem_outOf {liveIn : Nat → Finset α} {b : Nat} {k : α} :
    k ∈ p.outOf liveIn b ↔
      (p.succs b = [] ∧ k ∈ p.boundary b) ∨ ∃ s ∈ p.succs b, k ∈ liveIn s := by
  have hfold : ∀ (succs : List Nat) (out : Finset α),
      k ∈ succs.foldl (fun out s => out ∪ liveIn s) out ↔ k ∈ out ∨ ∃ s ∈ succs, k ∈ liveIn s := by
    intro succs
    induction succs with
    | nil => simp
    | cons s succs ih =>
      intro out
      rw [List.foldl_cons, ih]
      simp only [Finset.mem_union, List.mem_cons, exists_eq_or_imp, or_assoc]
  unfold outOf
  rw [hfold]
  by_cases hs : p.succs b = []
  · simp [hs]
  · simp [hs]

/-- Whatever the boundary, the successors and the transfer lead to nothing but,
    the fixpoint is nothing but. -/
theorem fixpoint_induction {n fuel : Nat} {liveIn liveOut : Nat → Finset α}
    {inOk outOk : Nat → α → Prop} (hclosed : ∀ b < n, ∀ s ∈ p.succs b, s < n)
    (hboundary : ∀ b < n, p.succs b = [] → ∀ k ∈ p.boundary b, outOk b k)
    (hsucc : ∀ b < n, ∀ s ∈ p.succs b, ∀ k, inOk s k → outOk b k)
    (htransfer : ∀ b < n, ∀ out, (∀ k ∈ out, outOk b k) → ∀ k ∈ p.transfer b out, inOk b k)
    (h : p.fixpoint n fuel = some (liveIn, liveOut)) :
    ∀ b < n, (∀ k ∈ liveIn b, inOk b k) ∧ ∀ k ∈ liveOut b, outOk b k := by
  have hsol := fixpoint_isSolution h
  obtain ⟨s, hs, heq⟩ := Option.map_eq_some_iff.mp h
  obtain ⟨hsolve, -, -⟩ := loop_spec consistent_init hs
  cases heq
  have hout : ∀ facts : Nat → Finset α, (∀ b < n, ∀ k ∈ facts b, inOk b k) →
      ∀ b < n, ∀ k ∈ p.outOf facts b, outOk b k := by
    intro facts hfacts b hb k hk
    rcases mem_outOf.mp hk with ⟨hnil, hk⟩ | ⟨c, hc, hk⟩
    · exact hboundary b hb hnil k hk
    · exact hsucc b hb c hc k (hfacts c (hclosed b hb c hc) k hk)
  -- Every visit keeps the in-sets so.
  have hstep : ∀ (facts : Nat → Finset α) (i : Nat), (∀ b < n, ∀ k ∈ facts b, inOk b k) →
      ∀ b < n, ∀ k ∈ Function.update facts i (p.equation facts i) b, inOk b k := by
    intro facts i hfacts b hb
    by_cases hi : b = i
    · subst hi
      rw [Function.update_self]
      exact htransfer b hb _ (hout facts hfacts b hb)
    · rw [Function.update_of_ne hi]
      exact hfacts b hb
  have hinit : ∀ b < n, ∀ k ∈ p.init.liveIn b, inOk b k := by
    intro b hb
    refine htransfer b hb _ fun k hk => ?_
    split at hk
    next hnil => exact hboundary b hb hnil k hk
    next => exact absurd hk (Finset.notMem_empty k)
  have hin := solve_invariant hstep hinit hsolve
  intro b hb
  refine ⟨hin b hb, ?_⟩
  rw [hsol.out_eq b hb]
  exact hout _ hin b hb

/-! ## Termination -/

theorem outOf_mono {liveIn liveIn' : Nat → Finset α} (h : liveIn ≤ liveIn') (b : Nat) :
    p.outOf liveIn b ⊆ p.outOf liveIn' b := by
  intro k hk
  rw [mem_outOf] at hk ⊢
  rcases hk with hk | ⟨s, hs, hk⟩
  · exact Or.inl hk
  · exact Or.inr ⟨s, hs, h s hk⟩

/-- A monotone transfer whose sets stay inside `univ` lets the loop end within
    one round for each bit of each block and one more. -/
theorem exists_fixpoint {n fuel : Nat} {univ : Finset α}
    (hmono : ∀ b, Monotone (p.transfer b)) (hboundary : ∀ b, p.boundary b ⊆ univ)
    (huniv : ∀ b out, out ⊆ univ → p.transfer b out ⊆ univ) (hfuel : n * univ.card < fuel) :
    ∃ liveIn liveOut, p.fixpoint n fuel = some (liveIn, liveOut) := by
  have heq : Monotone p.equation := fun _ _ h b => hmono b (outOf_mono h b)
  have hinit : ∀ b, p.init.liveOut b ⊆ univ := by
    intro b
    show (if p.succs b = [] then p.boundary b else ∅) ⊆ univ
    split
    · exact hboundary b
    · exact Finset.empty_subset _
  have hasc : Ascending p.equation p.init.liveIn := by
    intro b
    apply hmono b
    intro k hk
    rw [mem_outOf]
    by_cases hs : p.succs b = []
    · rw [if_pos hs] at hk
      exact Or.inl ⟨hs, hk⟩
    · rw [if_neg hs] at hk
      exact absurd hk (Finset.notMem_empty k)
  have hsolve : ∃ result,
      solve p.equation (List.range n).reverse fuel p.init.liveIn = some result := by
    have hstep : ∀ (facts : Nat → Finset α) (b : Nat), (∀ b, facts b ⊆ univ) →
        ∀ c, Function.update facts b (p.equation facts b) c ⊆ univ := by
      intro facts b hfacts c
      by_cases hc : c = b
      · subst hc
        rw [Function.update_self]
        apply huniv
        intro k hk
        rcases mem_outOf.mp hk with ⟨-, hk⟩ | ⟨s, -, hk⟩
        · exact hboundary _ hk
        · exact hfacts s hk
      · rw [Function.update_of_ne hc]
        exact hfacts c
    have hbound : ∀ facts : Nat → Finset α, (∀ b, facts b ⊆ univ) →
        totalRank Finset.card (List.range n).reverse facts ≤ n * univ.card := by
      intro facts hfacts
      have hle : ∀ m ∈ (List.range n).reverse.map fun b => (facts b).card, m ≤ univ.card := by
        intro m hm
        obtain ⟨b, -, rfl⟩ := List.mem_map.mp hm
        exact Finset.card_le_card (hfacts b)
      have := List.sum_le_card_nsmul _ _ hle
      simpa only [totalRank, List.length_map, List.length_reverse, List.length_range, nsmul_eq_mul,
        Nat.cast_id] using this
    exact exists_solve heq Finset.card_strictMono hstep hbound hasc (fun b => huniv b _ (hinit b))
      (by omega)
  obtain ⟨s, hs⟩ := exists_loop consistent_init hsolve
  refine ⟨s.liveIn, s.liveOut, ?_⟩
  unfold fixpoint
  rw [hs]
  rfl

end BackwardProblem

end Fixpoint

end Crabbit.Llvm
