/-
  Crabbit.Lib.Emission

  Items emitted one after another, each with its position at hand, and sizes
  that are known beforehand.
-/

import Mathlib.Algebra.GroupWithZero.Nat
import Mathlib.Tactic.TypeStar

namespace Crabbit.Lib

section Emission

variable {ι ε β φ : Type} {emit : Nat → ι → Except ε (List β × List φ)}

/-- The items from position `pc` on: their bytes, and notes made along the
    way. -/
def emitSeq (emit : Nat → ι → Except ε (List β × List φ)) :
    Nat → List ι → Except ε (List β × List φ)
  | _, [] => .ok ([], [])
  | pc, item :: rest => do
    let first ← emit pc item
    let others ← emitSeq emit (pc + first.1.length) rest
    return (first.1 ++ others.1, first.2 ++ others.2)

theorem emitSeq_cons_ok {pc : Nat} {item : ι} {rest : List ι} {e : List β × List φ} :
    emitSeq emit pc (item :: rest) = .ok e ↔
      ∃ first others, emit pc item = .ok first ∧
        emitSeq emit (pc + first.1.length) rest = .ok others ∧
        e = (first.1 ++ others.1, first.2 ++ others.2) := by
  rw [emitSeq]
  cases hfirst : emit pc item with
  | error error =>
    constructor
    · intro h
      cases h
    · rintro ⟨_, _, h, -⟩
      cases h
  | ok first =>
    constructor
    · intro h
      cases hothers : emitSeq emit (pc + first.1.length) rest with
      | error error =>
        simp only [bind, Except.bind, hothers] at h
        cases h
      | ok others =>
        simp only [bind, Except.bind, hothers] at h
        cases h
        exact ⟨first, others, rfl, hothers, rfl⟩
    · rintro ⟨first', others, heq, hothers, rfl⟩
      cases heq
      simp only [bind, Except.bind, hothers]
      rfl

/-- Two lists one after the other. -/
theorem emitSeq_append_ok {before after : List ι} {pc : Nat} {e : List β × List φ} :
    emitSeq emit pc (before ++ after) = .ok e ↔
      ∃ first others, emitSeq emit pc before = .ok first ∧
        emitSeq emit (pc + first.1.length) after = .ok others ∧
        e = (first.1 ++ others.1, first.2 ++ others.2) := by
  induction before generalizing pc e with
  | nil =>
    constructor
    · exact fun h => ⟨([], []), e, rfl, h, rfl⟩
    · rintro ⟨first, others, hfirst, hothers, rfl⟩
      cases hfirst
      exact hothers
  | cons item before ih =>
    rw [List.cons_append, emitSeq_cons_ok]
    constructor
    · rintro ⟨first, others, hfirst, hothers, rfl⟩
      obtain ⟨mid, last, hmid, hlast, rfl⟩ := ih.mp hothers
      refine ⟨_, last, emitSeq_cons_ok.mpr ⟨first, mid, hfirst, hmid, rfl⟩, ?_, ?_⟩
      · rwa [List.length_append, ← Nat.add_assoc]
      · rw [List.append_assoc, List.append_assoc]
    · rintro ⟨front, last, hfront, hlast, rfl⟩
      obtain ⟨first, mid, hfirst, hmid, rfl⟩ := emitSeq_cons_ok.mp hfront
      rw [List.length_append, ← Nat.add_assoc] at hlast
      refine ⟨first, _, hfirst, ih.mpr ⟨mid, last, hmid, hlast, rfl⟩, ?_⟩
      rw [List.append_assoc, List.append_assoc]

/-- A list in the middle is emitted behind the bytes of what comes before. -/
theorem emitSeq_split {before mid after : List ι} {pc : Nat} {e : List β × List φ}
    (h : emitSeq emit pc (before ++ mid ++ after) = .ok e) :
    ∃ first part post, emitSeq emit pc before = .ok first ∧
      emitSeq emit (pc + first.1.length) mid = .ok part ∧ e.1 = first.1 ++ part.1 ++ post := by
  obtain ⟨front, others, hfront, -, rfl⟩ := emitSeq_append_ok.mp h
  obtain ⟨first, part, hfirst, hpart, rfl⟩ := emitSeq_append_ok.mp hfront
  exact ⟨first, part, others.1, hfirst, hpart, rfl⟩

theorem emitSeq_singleton {pc : Nat} {item : ι} {e : List β × List φ} :
    emitSeq emit pc [item] = .ok e ↔ emit pc item = .ok e := by
  rw [emitSeq_cons_ok]
  constructor
  · rintro ⟨first, others, hfirst, hothers, rfl⟩
    cases hothers
    rw [hfirst, List.append_nil, List.append_nil]
  · intro h
    exact ⟨e, ([], []), h, rfl, by rw [List.append_nil, List.append_nil]⟩

/-- Every note was made when an item was emitted. -/
theorem emitSeq_note {items : List ι} {pc : Nat} {e : List β × List φ} {note : φ}
    (h : emitSeq emit pc items = .ok e) (hnote : note ∈ e.2) :
    ∃ item ∈ items, ∃ first part post, emit (pc + first.length) item = .ok part ∧
      e.1 = first ++ part.1 ++ post ∧ note ∈ part.2 := by
  induction items generalizing pc e with
  | nil =>
    cases h
    exact absurd hnote List.not_mem_nil
  | cons item items ih =>
    obtain ⟨first, others, hfirst, hothers, rfl⟩ := emitSeq_cons_ok.mp h
    rcases List.mem_append.mp hnote with hnote | hnote
    · exact ⟨item, List.mem_cons_self, [], first, others.1, hfirst, rfl, hnote⟩
    · obtain ⟨item', hitem, before, part, post, hpart, hbytes, hmem⟩ := ih hothers hnote
      refine ⟨item', List.mem_cons_of_mem _ hitem, first.1 ++ before, part, post, ?_, ?_, hmem⟩
      · rwa [List.length_append, ← Nat.add_assoc]
      · simp only [hbytes, List.append_assoc]

/-- The predicted sizes add up to the number of bytes, where each of them is
    right. -/
theorem sizes_of_emitSeq (size : ι → Except ε Nat) {items : List ι} {pc : Nat}
    {e : List β × List φ}
    (hsize : ∀ item ∈ items, ∀ pc e, emit pc item = .ok e → size item = .ok e.1.length)
    (h : emitSeq emit pc items = .ok e) :
    ∃ sizes, items.mapM size = .ok sizes ∧ sizes.sum = e.1.length := by
  induction items generalizing pc e with
  | nil =>
    cases h
    exact ⟨[], rfl, rfl⟩
  | cons item items ih =>
    obtain ⟨first, others, hfirst, hothers, rfl⟩ := emitSeq_cons_ok.mp h
    obtain ⟨sizes, hsizes, hsum⟩ :=
      ih (fun item' hitem => hsize item' (List.mem_cons_of_mem _ hitem)) hothers
    refine ⟨first.1.length :: sizes, ?_, ?_⟩
    · rw [List.mapM_cons, hsize item List.mem_cons_self pc first hfirst, hsizes]
      rfl
    · rw [List.sum_cons, hsum, List.length_append]

end Emission

end Crabbit.Lib
