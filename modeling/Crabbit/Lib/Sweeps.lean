/-
  Crabbit.Lib.Sweeps

  A loop that sweeps over a list of visits until a whole sweep changes
  nothing.  Every visit may update any part of the state, and says whether it
  did.

  `sweeps_keeps` carries to what the loop returns what every visit keeps,
  `sweeps_fixed` says that no visit changes it, and `exists_sweeps` is
  termination, for a rank the changes raise.
-/

import Mathlib.Data.Nat.Notation

namespace Crabbit.Lib

section Sweeps

variable {σ : Type*}

/-- One sweep; the flag is raised by the visits that change something. -/
def sweep (visits : List (σ → σ × Bool)) (s : σ) : σ × Bool :=
  visits.foldl (fun p visit => ((visit p.1).1, p.2 || (visit p.1).2)) (s, false)

/-- Sweeps until one changes nothing; `none` when the fuel runs out. -/
def sweeps (visits : List (σ → σ × Bool)) : Nat → σ → Option σ
  | 0, _ => none
  | fuel + 1, s =>
      if (sweep visits s).2 then sweeps visits fuel (sweep visits s).1
      else some (sweep visits s).1

/-- In the states the loop gets to, a visit that reports no change made none. -/
def Honest (P : σ → Prop) (visit : σ → σ × Bool) : Prop :=
  ∀ s, P s → (visit s).2 = false → (visit s).1 = s

/-- What holds of a state holds after the visit. -/
def Keeps (P : σ → Prop) (visit : σ → σ × Bool) : Prop := ∀ s, P s → P (visit s).1

/-- No visit lowers the rank, and a change raises it. -/
def Climbs (P : σ → Prop) (rank : σ → Nat) (visit : σ → σ × Bool) : Prop :=
  ∀ s, P s → rank s ≤ rank (visit s).1 ∧ ((visit s).2 = true → rank s < rank (visit s).1)

variable {visits : List (σ → σ × Bool)} {P : σ → Prop} {s t : σ}

/-! ## One sweep -/

/-- The flag stays up. -/
theorem foldl_flag (visits : List (σ → σ × Bool)) (p : σ × Bool) (hp : p.2 = true) :
    (visits.foldl (fun p visit => ((visit p.1).1, p.2 || (visit p.1).2)) p).2 = true := by
  induction visits generalizing p with
  | nil => exact hp
  | cons visit visits ih =>
      apply ih
      simp only [hp, Bool.true_or]

theorem sweep_quiet (hhonest : ∀ visit ∈ visits, Honest P visit) (hs : P s)
    (h : (sweep visits s).2 = false) :
    (sweep visits s).1 = s ∧ ∀ visit ∈ visits, (visit s).2 = false := by
  unfold sweep at h ⊢
  induction visits with
  | nil => exact ⟨rfl, fun _ hv => absurd hv List.not_mem_nil⟩
  | cons visit visits ih =>
      rw [List.foldl_cons] at h ⊢
      cases hflag : (visit s).2 with
      | true =>
          rw [foldl_flag visits _ (by rw [hflag]; rfl)] at h
          cases h
      | false =>
          have hsame := hhonest visit List.mem_cons_self s hs hflag
          simp only [hflag, hsame, Bool.or_false] at h ⊢
          obtain ⟨hsweep, hquiet⟩ := ih (fun v hv => hhonest v (List.mem_cons_of_mem _ hv)) h
          refine ⟨hsweep, fun v hv => ?_⟩
          rcases List.mem_cons.mp hv with rfl | hv
          · exact hflag
          · exact hquiet v hv

theorem sweep_keeps (hkeeps : ∀ visit ∈ visits, Keeps P visit) (hs : P s) :
    P (sweep visits s).1 := by
  have hfold : ∀ (l : List (σ → σ × Bool)), (∀ visit ∈ l, visit ∈ visits) →
      ∀ p : σ × Bool, P p.1 →
        P (l.foldl (fun p visit => ((visit p.1).1, p.2 || (visit p.1).2)) p).1 := by
    intro l
    induction l with
    | nil => exact fun _ p hp => hp
    | cons visit l ih =>
        intro hl p hp
        apply ih fun v hv => hl v (List.mem_cons_of_mem _ hv)
        exact hkeeps visit (hl visit List.mem_cons_self) p.1 hp
  exact hfold visits (fun _ h => h) (s, false) hs

/-! ## The loop -/

theorem sweeps_keeps (hkeeps : ∀ visit ∈ visits, Keeps P visit) (hs : P s) {fuel : Nat}
    (h : sweeps visits fuel s = some t) : P t := by
  induction fuel generalizing s with
  | zero => cases h
  | succ fuel ih =>
      rw [sweeps] at h
      split at h
      · exact ih (sweep_keeps hkeeps hs) h
      · obtain rfl := Option.some.inj h
        exact sweep_keeps hkeeps hs

/-- No visit changes what the loop returns. -/
theorem sweeps_fixed (hkeeps : ∀ visit ∈ visits, Keeps P visit)
    (hhonest : ∀ visit ∈ visits, Honest P visit) (hs : P s) {fuel : Nat}
    (h : sweeps visits fuel s = some t) : ∀ visit ∈ visits, visit t = (t, false) := by
  induction fuel generalizing s with
  | zero => cases h
  | succ fuel ih =>
      rw [sweeps] at h
      split at h
      · exact ih (sweep_keeps hkeeps hs) h
      · rename_i hflag
        obtain rfl := Option.some.inj h
        rw [Bool.not_eq_true] at hflag
        obtain ⟨hsweep, hquiet⟩ := sweep_quiet hhonest hs hflag
        intro visit hv
        rw [hsweep]
        exact Prod.ext (hhonest visit hv s hs (hquiet visit hv)) (hquiet visit hv)

/-! ## Termination -/

variable {rank : σ → Nat}

theorem sweep_climbs (hkeeps : ∀ visit ∈ visits, Keeps P visit)
    (hclimbs : ∀ visit ∈ visits, Climbs P rank visit) (hs : P s)
    (h : (sweep visits s).2 = true) : rank s < rank (sweep visits s).1 := by
  have hfold : ∀ (l : List (σ → σ × Bool)), (∀ visit ∈ l, visit ∈ visits) → ∀ p : σ × Bool,
      P p.1 →
      rank p.1 ≤ rank (l.foldl (fun p visit => ((visit p.1).1, p.2 || (visit p.1).2)) p).1 ∧
        ((l.foldl (fun p visit => ((visit p.1).1, p.2 || (visit p.1).2)) p).2 = true →
          p.2 = false →
          rank p.1 < rank (l.foldl (fun p visit => ((visit p.1).1, p.2 || (visit p.1).2)) p).1) := by
    intro l
    induction l with
    | nil =>
        intro _ p _
        refine ⟨Nat.le_refl _, fun h hp => ?_⟩
        rw [List.foldl_nil, hp] at h
        cases h
    | cons visit l ih =>
        intro hl p hp
        have hvisit := hl visit List.mem_cons_self
        obtain ⟨hle, hlt⟩ := hclimbs visit hvisit p.1 hp
        obtain ⟨hle', hlt'⟩ := ih (fun v hv => hl v (List.mem_cons_of_mem _ hv))
          ((visit p.1).1, p.2 || (visit p.1).2) (hkeeps visit hvisit p.1 hp)
        rw [List.foldl_cons]
        refine ⟨Nat.le_trans hle hle', fun h hp => ?_⟩
        by_cases hflag : (visit p.1).2 = true
        · exact Nat.lt_of_lt_of_le (hlt hflag) hle'
        · rw [Bool.not_eq_true] at hflag
          exact Nat.lt_of_le_of_lt hle (hlt' h (by simp only [hp, hflag, Bool.or_false]))
  exact (hfold visits (fun _ h => h) (s, false) hs).2 h rfl

/-- The loop ends, within as many sweeps as the rank can be raised. -/
theorem exists_sweeps (hkeeps : ∀ visit ∈ visits, Keeps P visit)
    (hclimbs : ∀ visit ∈ visits, Climbs P rank visit) {bound : Nat}
    (hbound : ∀ s, P s → rank s ≤ bound) (hs : P s) :
    ∃ t, sweeps visits (bound + 1) s = some t := by
  have hmain : ∀ fuel s, P s → bound < rank s + fuel → ∃ t, sweeps visits fuel s = some t := by
    intro fuel
    induction fuel with
    | zero =>
        intro s hs h
        have := hbound s hs
        omega
    | succ fuel ih =>
        intro s hs h
        rw [sweeps]
        split
        · rename_i hflag
          have := sweep_climbs hkeeps hclimbs hs hflag
          exact ih _ (sweep_keeps hkeeps hs) (by omega)
        · exact ⟨_, rfl⟩
  exact hmain (bound + 1) s hs (by omega)

end Sweeps

end Crabbit.Lib
