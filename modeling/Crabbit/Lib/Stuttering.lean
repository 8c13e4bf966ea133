/-
  Crabbit.Lib.Stuttering

  Deterministic systems whose steps may be silent, and when one may stand for
  another: it emits the same events and ends after the same ones, as long as
  the other does not go wrong, that is, get stuck before its end.

  The first system may take silent steps of its own, as long as a measure goes
  down; apart from that the two run in step.
-/

import Mathlib.Tactic.ByContra
import Mathlib.Tactic.TypeStar

namespace Crabbit.Lib

/-- A step leads to a state, perhaps with an event. -/
structure Process (ε : Type*) where
  State : Type
  step : State → Option (State × Option ε)
  final : State → Prop

namespace Process

variable {ε : Type*} {P Q R : Process ε}

/-! ## Runs -/

/-- A run from the state emits the events, in order. -/
inductive Emits (P : Process ε) : P.State → List ε → Prop where
  | nil {s : P.State} : Emits P s []
  | silent {s t : P.State} {events : List ε} (hstep : P.step s = some (t, none))
      (h : Emits P t events) : Emits P s events
  | event {s t : P.State} {event : ε} {events : List ε}
      (hstep : P.step s = some (t, some event)) (h : Emits P t events) :
      Emits P s (event :: events)

/-- The run from the state comes to its end, and emits the events before. -/
inductive Halts (P : Process ε) : P.State → List ε → Prop where
  | stop {s : P.State} (hstep : P.step s = none) (hfinal : P.final s) : Halts P s []
  | silent {s t : P.State} {events : List ε} (hstep : P.step s = some (t, none))
      (h : Halts P t events) : Halts P s events
  | event {s t : P.State} {event : ε} {events : List ε}
      (hstep : P.step s = some (t, some event)) (h : Halts P t events) :
      Halts P s (event :: events)

/-- The run from the state gets stuck. -/
inductive Wrong (P : Process ε) : P.State → Prop where
  | stuck {s : P.State} (hstep : P.step s = none) (hfinal : ¬ P.final s) : Wrong P s
  | step {s t : P.State} {event : Option ε} (hstep : P.step s = some (t, event))
      (h : Wrong P t) : Wrong P s

/-- The second may stand for the first. -/
structure Refined (P Q : Process ε) (s : P.State) (t : Q.State) : Prop where
  emits : ∀ {events}, P.Emits s events → Q.Emits t events
  halts : ∀ {events}, P.Halts s events → Q.Halts t events
  safe : ¬ P.Wrong s → ¬ Q.Wrong t
  emitted : ¬ P.Wrong s → ∀ {events}, Q.Emits t events → P.Emits s events
  halted : ¬ P.Wrong s → ∀ {events}, Q.Halts t events → P.Halts s events

theorem Refined.refl (s : P.State) : Refined P P s s := ⟨id, id, id, fun _ _ => id, fun _ _ => id⟩

theorem Refined.trans {s : P.State} {t : Q.State} {u : R.State} (h : Refined P Q s t)
    (h' : Refined Q R t u) : Refined P R s u := by
  refine ⟨fun he => h'.emits (h.emits he), fun he => h'.halts (h.halts he),
    fun hs => h'.safe (h.safe hs), fun hs _ he => ?_, fun hs _ he => ?_⟩
  · exact h.emitted hs (h'.emitted (h.safe hs) he)
  · exact h.halted hs (h'.halted (h.safe hs) he)

/-! ## Running in step -/

/-- Related states end together or step together, unless the first one is
    stuck, or takes a silent step alone. -/
def Stutters (P Q : Process ε) (rel : P.State → Q.State → Prop) (measure : P.State → Nat) : Prop :=
  ∀ s t, rel s t →
    (P.step s = none ∧ (P.final s → Q.step t = none ∧ Q.final t)) ∨
    (∃ s', P.step s = some (s', none) ∧ rel s' t ∧ measure s' < measure s) ∨
    ∃ s' t' event, P.step s = some (s', event) ∧ Q.step t = some (t', event) ∧ rel s' t'

variable {rel : P.State → Q.State → Prop} {measure : P.State → Nat}

/-- A step of the first system is its own, or one of both. -/
theorem Stutters.step (h : Stutters P Q rel measure) {s s' : P.State} {t : Q.State}
    {event : Option ε} (hrel : rel s t) (hstep : P.step s = some (s', event)) :
    (event = none ∧ rel s' t) ∨ ∃ t', Q.step t = some (t', event) ∧ rel s' t' := by
  rcases h s t hrel with ⟨hs, -⟩ | ⟨s'', hs, hrel', -⟩ | ⟨s'', t', event', hs, ht, hrel'⟩
  · rw [hs] at hstep
    cases hstep
  · rw [hs] at hstep
    cases hstep
    exact Or.inl ⟨rfl, hrel'⟩
  · rw [hs] at hstep
    cases hstep
    exact Or.inr ⟨t', ht, hrel'⟩

theorem Emits.forward (h : Stutters P Q rel measure) {s : P.State} {t : Q.State} {events : List ε}
    (hemits : P.Emits s events) (hrel : rel s t) : Q.Emits t events := by
  induction hemits generalizing t with
  | nil => exact .nil
  | silent hstep _ ih =>
    rcases h.step hrel hstep with ⟨-, hrel'⟩ | ⟨t', ht, hrel'⟩
    · exact ih hrel'
    · exact .silent ht (ih hrel')
  | event hstep _ ih =>
    rcases h.step hrel hstep with ⟨hnone, -⟩ | ⟨t', ht, hrel'⟩
    · cases hnone
    · exact .event ht (ih hrel')

theorem Halts.forward (h : Stutters P Q rel measure) {s : P.State} {t : Q.State} {events : List ε}
    (hhalts : P.Halts s events) (hrel : rel s t) : Q.Halts t events := by
  induction hhalts generalizing t with
  | stop hstep hfinal =>
    rcases h _ _ hrel with ⟨-, hend⟩ | ⟨s', hs, -, -⟩ | ⟨s', t', event, hs, -, -⟩
    · exact .stop (hend hfinal).1 (hend hfinal).2
    · rw [hs] at hstep
      cases hstep
    · rw [hs] at hstep
      cases hstep
  | silent hstep _ ih =>
    rcases h.step hrel hstep with ⟨-, hrel'⟩ | ⟨t', ht, hrel'⟩
    · exact ih hrel'
    · exact .silent ht (ih hrel')
  | event hstep _ ih =>
    rcases h.step hrel hstep with ⟨hnone, -⟩ | ⟨t', ht, hrel'⟩
    · cases hnone
    · exact .event ht (ih hrel')

/-- After finitely many silent steps of its own, the first system is where the
    two end or step together, if it does not go wrong. -/
theorem Stutters.settle (h : Stutters P Q rel measure) {s : P.State} {t : Q.State} (hrel : rel s t)
    (hsafe : ¬ P.Wrong s) :
    ∃ s', ¬ P.Wrong s' ∧ (∀ events, P.Emits s' events → P.Emits s events) ∧
      (∀ events, P.Halts s' events → P.Halts s events) ∧
      ((P.step s' = none ∧ P.final s' ∧ Q.step t = none ∧ Q.final t) ∨
        ∃ s'' t' event, P.step s' = some (s'', event) ∧ Q.step t = some (t', event) ∧
          rel s'' t') := by
  induction hn : measure s using Nat.strongRecOn generalizing s with
  | ind n ih =>
    rcases h s t hrel with ⟨hs, hend⟩ | ⟨s', hs, hrel', hlt⟩ | hboth
    · have hfinal : P.final s := by
        by_contra hfinal
        exact hsafe (.stuck hs hfinal)
      exact ⟨s, hsafe, fun _ he => he, fun _ he => he, Or.inl ⟨hs, hfinal, hend hfinal⟩⟩
    · obtain ⟨s'', hsafe', hemits, hhalts, hcases⟩ :=
        ih _ (hn ▸ hlt) hrel' (fun hwrong => hsafe (.step hs hwrong)) rfl
      exact ⟨s'', hsafe', fun events he => .silent hs (hemits events he),
        fun events he => .silent hs (hhalts events he), hcases⟩
    · exact ⟨s, hsafe, fun _ he => he, fun _ he => he, Or.inr hboth⟩

/-- The step of both that is due when the second system takes one. -/
theorem Stutters.back (h : Stutters P Q rel measure) {s : P.State} {t t' : Q.State}
    {event : Option ε} (hrel : rel s t) (hsafe : ¬ P.Wrong s)
    (hstep : Q.step t = some (t', event)) :
    ∃ s' s'', P.step s' = some (s'', event) ∧ rel s'' t' ∧ ¬ P.Wrong s'' ∧
      (∀ events, P.Emits s' events → P.Emits s events) ∧
      ∀ events, P.Halts s' events → P.Halts s events := by
  obtain ⟨s', hsafe', hemits, hhalts, ⟨-, -, ht, -⟩ | ⟨s'', t'', event', hs, ht, hrel'⟩⟩ :=
    h.settle hrel hsafe
  · rw [ht] at hstep
    cases hstep
  · rw [ht] at hstep
    cases hstep
    exact ⟨s', s'', hs, hrel', fun hwrong => hsafe' (.step hs hwrong), hemits, hhalts⟩

theorem Emits.backward (h : Stutters P Q rel measure) {s : P.State} {t : Q.State} {events : List ε}
    (hemits : Q.Emits t events) (hrel : rel s t) (hsafe : ¬ P.Wrong s) : P.Emits s events := by
  induction hemits generalizing s with
  | nil => exact .nil
  | silent hstep _ ih =>
    obtain ⟨s', s'', hs, hrel', hsafe', hback, -⟩ := h.back hrel hsafe hstep
    exact hback _ (.silent hs (ih hrel' hsafe'))
  | event hstep _ ih =>
    obtain ⟨s', s'', hs, hrel', hsafe', hback, -⟩ := h.back hrel hsafe hstep
    exact hback _ (.event hs (ih hrel' hsafe'))

theorem Halts.backward (h : Stutters P Q rel measure) {s : P.State} {t : Q.State} {events : List ε}
    (hhalts : Q.Halts t events) (hrel : rel s t) (hsafe : ¬ P.Wrong s) : P.Halts s events := by
  induction hhalts generalizing s with
  | stop hstep _ =>
    obtain ⟨s', -, -, hback, ⟨hs, hfinal, -⟩ | ⟨s'', t', event, -, ht, -⟩⟩ := h.settle hrel hsafe
    · exact hback _ (.stop hs hfinal)
    · rw [ht] at hstep
      cases hstep
  | silent hstep _ ih =>
    obtain ⟨s', s'', hs, hrel', hsafe', -, hback⟩ := h.back hrel hsafe hstep
    exact hback _ (.silent hs (ih hrel' hsafe'))
  | event hstep _ ih =>
    obtain ⟨s', s'', hs, hrel', hsafe', -, hback⟩ := h.back hrel hsafe hstep
    exact hback _ (.event hs (ih hrel' hsafe'))

theorem Wrong.backward (h : Stutters P Q rel measure) {s : P.State} {t : Q.State}
    (hwrong : Q.Wrong t) (hrel : rel s t) : P.Wrong s := by
  by_contra hsafe
  induction hwrong generalizing s with
  | stuck hstep hfinal =>
    obtain ⟨s', -, -, -, ⟨-, -, -, hend⟩ | ⟨s'', t', event, -, ht, -⟩⟩ := h.settle hrel hsafe
    · exact hfinal hend
    · rw [ht] at hstep
      cases hstep
  | step hstep _ ih =>
    obtain ⟨s', s'', -, hrel', hsafe', -⟩ := h.back hrel hsafe hstep
    exact ih hrel' hsafe'

theorem Stutters.refined {rel : P.State → Q.State → Prop} (measure : P.State → Nat)
    (h : Stutters P Q rel measure) {s : P.State} {t : Q.State} (hrel : rel s t) :
    Refined P Q s t :=
  ⟨fun he => he.forward h hrel, fun he => he.forward h hrel,
    fun hsafe hwrong => hsafe (hwrong.backward h hrel), fun hsafe _ he => he.backward h hrel hsafe,
    fun hsafe _ he => he.backward h hrel hsafe⟩

end Process

end Crabbit.Lib
