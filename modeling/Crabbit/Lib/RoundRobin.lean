/-
  Crabbit.Lib.RoundRobin

  The round-robin solver of a dataflow problem: visit the nodes in a fixed
  order, replace each node's fact by what its transfer computes from the
  current facts, and repeat until a whole round changes nothing.

  `solve_isFixed` says that what the solver returns satisfies the equations,
  `solve_invariant` transports any property every visit keeps, and
  `exists_solve` is termination: the facts climb in an order of bounded rank.
-/

import Mathlib.Algebra.BigOperators.Group.List.Basic
import Mathlib.Algebra.GroupWithZero.Nat
import Mathlib.Algebra.Order.BigOperators.Group.List
import Mathlib.Algebra.Order.Group.Nat
import Mathlib.Logic.Function.Basic
import Mathlib.Order.BoundedOrder.Basic
import Mathlib.Order.Monotone.Basic

namespace Crabbit.Lib

section RoundRobin

variable {ι α : Type*} [DecidableEq ι] [DecidableEq α]

/-- Visit one node; the flag records whether any fact of the round changed. -/
def visitNode (transfer : (ι → α) → ι → α) (s : (ι → α) × Bool) (i : ι) : (ι → α) × Bool :=
  if transfer s.1 i = s.1 i then s
  else (Function.update s.1 i (transfer s.1 i), true)

/-- One round over the nodes. -/
def solveRound (transfer : (ι → α) → ι → α) (order : List ι) (facts : ι → α) : (ι → α) × Bool :=
  order.foldl (visitNode transfer) (facts, false)

/-- Rounds until one changes nothing; `none` when the fuel runs out. -/
def solve (transfer : (ι → α) → ι → α) (order : List ι) : Nat → (ι → α) → Option (ι → α)
  | 0, _ => none
  | fuel + 1, facts =>
    match solveRound transfer order facts with
    | (facts', false) => some facts'
    | (facts', true) => solve transfer order fuel facts'

variable {transfer : (ι → α) → ι → α} {order : List ι}

/-! ## What a round does -/

/-- The flag never goes back to `false`. -/
theorem foldl_visitNode_true (order : List ι) (s : (ι → α) × Bool) (hs : s.2 = true) :
    (order.foldl (visitNode transfer) s).2 = true := by
  induction order generalizing s with
  | nil => exact hs
  | cons i order ih =>
    refine ih _ ?_
    unfold visitNode
    split
    · exact hs
    · rfl

/-- A round that reports no change made none, and every node it visited
    satisfies its equation. -/
theorem foldl_visitNode_false (order : List ι) (s : (ι → α) × Bool)
    (h : (order.foldl (visitNode transfer) s).2 = false) :
    order.foldl (visitNode transfer) s = s ∧ ∀ i ∈ order, transfer s.1 i = s.1 i := by
  induction order generalizing s with
  | nil => exact ⟨rfl, fun _ hi => by cases hi⟩
  | cons i order ih =>
    rw [List.foldl_cons] at h ⊢
    by_cases hi : transfer s.1 i = s.1 i
    · have hv : visitNode transfer s i = s := if_pos hi
      rw [hv] at h ⊢
      obtain ⟨heq, hall⟩ := ih s h
      refine ⟨heq, fun j hj => ?_⟩
      rcases List.mem_cons.mp hj with rfl | hj
      · exact hi
      · exact hall j hj
    · have hv : (visitNode transfer s i).2 = true := by
        unfold visitNode
        rw [if_neg hi]
      rw [foldl_visitNode_true order _ hv] at h
      cases h

/-- What a solver returns satisfies the equation of every node it visits. -/
theorem solve_isFixed {fuel : Nat} {facts result : ι → α}
    (h : solve transfer order fuel facts = some result) :
    ∀ i ∈ order, transfer result i = result i := by
  induction fuel generalizing facts with
  | zero => cases h
  | succ fuel ih =>
    unfold solve at h
    rcases hround : solveRound transfer order facts with ⟨facts', _ | _⟩
    · rw [hround] at h
      obtain rfl := Option.some.inj h
      have hfalse : (order.foldl (visitNode transfer) (facts, false)).2 = false :=
        congrArg Prod.snd hround
      obtain ⟨heq, hall⟩ := foldl_visitNode_false order _ hfalse
      have : facts' = facts := congrArg Prod.fst (hround.symm.trans heq)
      rw [this]
      exact hall
    · rw [hround] at h
      exact ih h

/-! ## Invariants -/

theorem foldl_visitNode_invariant {P : (ι → α) → Prop}
    (hstep : ∀ facts i, P facts → P (Function.update facts i (transfer facts i)))
    (order : List ι) (s : (ι → α) × Bool) (hs : P s.1) :
    P (order.foldl (visitNode transfer) s).1 := by
  induction order generalizing s with
  | nil => exact hs
  | cons i order ih =>
    refine ih _ ?_
    unfold visitNode
    split
    · exact hs
    · exact hstep s.1 i hs

/-- A property every visit keeps holds of the result. -/
theorem solve_invariant {P : (ι → α) → Prop}
    (hstep : ∀ facts i, P facts → P (Function.update facts i (transfer facts i)))
    {fuel : Nat} {facts result : ι → α} (h₀ : P facts)
    (h : solve transfer order fuel facts = some result) : P result := by
  induction fuel generalizing facts with
  | zero => cases h
  | succ fuel ih =>
    unfold solve at h
    have hround := foldl_visitNode_invariant hstep order (facts, false) h₀
    rcases hr : solveRound transfer order facts with ⟨facts', _ | _⟩
    · rw [hr] at h
      obtain rfl := Option.some.inj h
      rw [show facts' = (solveRound transfer order facts).1 by rw [hr]]
      exact hround
    · rw [hr] at h
      refine ih ?_ h
      rw [show facts' = (solveRound transfer order facts).1 by rw [hr]]
      exact hround

/-! ## Termination -/

section Termination

variable [PartialOrder α]

/-- The facts lie below what their transfers compute from them. -/
def Ascending (transfer : (ι → α) → ι → α) (facts : ι → α) : Prop :=
  ∀ i, facts i ≤ transfer facts i

omit [DecidableEq α] in
/-- A visit of an ascending state raises it and keeps it ascending. -/
theorem Ascending.update (hmono : Monotone transfer) {facts : ι → α}
    (hasc : Ascending transfer facts) (i : ι) :
    facts ≤ Function.update facts i (transfer facts i) ∧
      Ascending transfer (Function.update facts i (transfer facts i)) := by
  have hle : facts ≤ Function.update facts i (transfer facts i) := by
    intro j
    by_cases hj : j = i
    · subst hj
      rw [Function.update_self]
      exact hasc j
    · rw [Function.update_of_ne hj]
  refine ⟨hle, fun j => ?_⟩
  have hup := hmono hle j
  by_cases hj : j = i
  · subst hj
    rw [Function.update_self]
    exact hup
  · rw [Function.update_of_ne hj]
    exact (hasc j).trans hup

variable {rank : α → Nat} {bound : Nat}

/-- Total rank of the facts of the visited nodes. -/
def totalRank (rank : α → Nat) (order : List ι) (facts : ι → α) : Nat :=
  (order.map fun i => rank (facts i)).sum

omit [DecidableEq ι] [DecidableEq α] in
theorem totalRank_mono (hrank : Monotone rank) (order : List ι) {facts facts' : ι → α}
    (h : facts ≤ facts') : totalRank rank order facts ≤ totalRank rank order facts' := by
  refine List.sum_le_sum fun i _ => hrank (h i)

omit [DecidableEq ι] [DecidableEq α] in
theorem totalRank_lt (hrank : StrictMono rank) {order : List ι} {facts facts' : ι → α}
    (h : facts ≤ facts') {i : ι} (hi : i ∈ order) (hlt : facts i < facts' i) :
    totalRank rank order facts < totalRank rank order facts' :=
  List.sum_lt_sum _ _ (fun j _ => hrank.monotone (h j)) ⟨i, hi, hrank hlt⟩

/-- A round keeps the state ascending, raises it, and raises the total rank
    when it reports a change. -/
theorem foldl_visitNode_ascending (hmono : Monotone transfer) (hrank : StrictMono rank)
    (order suffix : List ι) (hsub : ∀ i ∈ suffix, i ∈ order) (s : (ι → α) × Bool)
    (hasc : Ascending transfer s.1) :
    let r := suffix.foldl (visitNode transfer) s
    Ascending transfer r.1 ∧ s.1 ≤ r.1 ∧
      (s.2 = false → r.2 = true → totalRank rank order s.1 < totalRank rank order r.1) := by
  induction suffix generalizing s with
  | nil => exact ⟨hasc, le_refl _, fun h h' => by rw [List.foldl_nil, h] at h'; cases h'⟩
  | cons i suffix ih =>
    have hsub' : ∀ j ∈ suffix, j ∈ order := fun j hj => hsub j (List.mem_cons_of_mem _ hj)
    rw [List.foldl_cons]
    by_cases hi : transfer s.1 i = s.1 i
    · have hv : visitNode transfer s i = s := if_pos hi
      rw [hv]
      exact ih hsub' s hasc
    · have hv : visitNode transfer s i =
          (Function.update s.1 i (transfer s.1 i), true) := if_neg hi
      obtain ⟨hle, hasc'⟩ := hasc.update hmono i
      obtain ⟨hasc'', hle', -⟩ := ih hsub' (visitNode transfer s i) (by rw [hv]; exact hasc')
      rw [hv] at hasc'' hle' ⊢
      refine ⟨hasc'', hle.trans hle', fun _ _ => ?_⟩
      refine (totalRank_lt hrank hle (hsub i List.mem_cons_self) ?_).trans_le
        (totalRank_mono hrank.monotone order hle')
      rw [Function.update_self]
      exact lt_of_le_of_ne (hasc i) fun h => hi h.symm

/-- When every state that satisfies an invariant `P` of the visits has total
    rank at most `bound`, fuel for one more round than there are rank steps
    left is enough. -/
theorem exists_solve (hmono : Monotone transfer) (hrank : StrictMono rank)
    {P : (ι → α) → Prop}
    (hstep : ∀ facts i, P facts → P (Function.update facts i (transfer facts i)))
    (hbound : ∀ facts, P facts → totalRank rank order facts ≤ bound)
    {facts : ι → α} (hasc : Ascending transfer facts) (hP : P facts) :
    ∀ {fuel : Nat}, bound < fuel + totalRank rank order facts →
      ∃ result, solve transfer order fuel facts = some result := by
  intro fuel
  induction fuel generalizing facts with
  | zero =>
    intro hfuel
    have := hbound facts hP
    omega
  | succ fuel ih =>
    intro hfuel
    have hround := foldl_visitNode_ascending hmono hrank order order
      (fun _ h => h) (facts, false) hasc
    have hP' := foldl_visitNode_invariant hstep order (facts, false) hP
    unfold solve
    rcases hr : solveRound transfer order facts with ⟨facts', _ | _⟩
    · exact ⟨facts', rfl⟩
    · have hfold : order.foldl (visitNode transfer) (facts, false) = (facts', true) := hr
      rw [hfold] at hround hP'
      refine ih hround.1 hP' ?_
      have := hround.2.2 rfl rfl
      simp only at this
      omega

end Termination

end RoundRobin

end Crabbit.Lib
