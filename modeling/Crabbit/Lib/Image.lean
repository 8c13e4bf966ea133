/-
  Crabbit.Lib.Image

  Byte images put together from chunks at increasing offsets, with padding
  between them: where the chunks are found, and that they do not overlap.
-/

import Crabbit.Lib.Bytes

namespace Crabbit.Lib

variable {α : Type}

/-- `out` filled up with `fill` to the given length. -/
def padTo (fill : α) (out : List α) (len : Nat) : List α :=
  out ++ List.replicate (len - out.length) fill

theorem length_padTo {fill : α} {out : List α} {len : Nat} (h : out.length ≤ len) :
    (padTo fill out len).length = len := by
  rw [padTo, List.length_append, List.length_replicate]
  omega

/-- A chunk put at its offset behind what is there. -/
def emit (fill : α) (out : List α) (chunk : Nat × List α) : List α :=
  padTo fill out chunk.1 ++ chunk.2

def emitAll (fill : α) (out : List α) (chunks : List (Nat × List α)) : List α :=
  chunks.foldl (emit fill) out

theorem emitAll_cons (fill : α) (out : List α) (chunk : Nat × List α)
    (chunks : List (Nat × List α)) :
    emitAll fill out (chunk :: chunks) = emitAll fill (emit fill out chunk) chunks :=
  rfl

theorem emitAll_append (fill : α) (out : List α) (a b : List (Nat × List α)) :
    emitAll fill out (a ++ b) = emitAll fill (emitAll fill out a) b :=
  List.foldl_append

/-- Where an image that is `pos` long ends after more chunks. -/
def endOf : Nat → List (Nat × List α) → Nat
  | pos, [] => pos
  | _, chunk :: rest => endOf (chunk.1 + chunk.2.length) rest

/-- Every chunk begins where the one before it has ended, or later. -/
def Ordered : Nat → List (Nat × List α) → Prop
  | _, [] => True
  | pos, chunk :: rest => pos ≤ chunk.1 ∧ Ordered (chunk.1 + chunk.2.length) rest

/-- Appending at the end is putting a chunk there. -/
theorem append_eq_emit (fill : α) {out bytes : List α} {off : Nat} (h : out.length = off) :
    out ++ bytes = emit fill out (off, bytes) := by
  rw [emit, padTo, h, Nat.sub_self, List.replicate_zero, List.append_nil]

theorem length_emit (fill : α) {out : List α} (chunk : Nat × List α) (h : out.length ≤ chunk.1) :
    (emit fill out chunk).length = chunk.1 + chunk.2.length := by
  rw [emit, List.length_append, length_padTo h]

theorem endOf_append (pos : Nat) (a b : List (Nat × List α)) :
    endOf pos (a ++ b) = endOf (endOf pos a) b := by
  induction a generalizing pos with
  | nil => rfl
  | cons chunk rest ih => exact ih _

theorem ordered_append {pos : Nat} {a b : List (Nat × List α)} :
    Ordered pos (a ++ b) ↔ Ordered pos a ∧ Ordered (endOf pos a) b := by
  induction a generalizing pos with
  | nil => exact ⟨fun h => ⟨trivial, h⟩, And.right⟩
  | cons chunk rest ih =>
    rw [List.cons_append, Ordered, Ordered, ih, and_assoc]
    rfl

theorem Ordered.mono {pos pos' : Nat} {chunks : List (Nat × List α)} (h : Ordered pos chunks)
    (hle : pos' ≤ pos) : Ordered pos' chunks := by
  cases chunks with
  | nil => trivial
  | cons first rest => exact ⟨Nat.le_trans hle h.1, h.2⟩

theorem Ordered.le_endOf {pos : Nat} {chunks : List (Nat × List α)} (h : Ordered pos chunks) :
    pos ≤ endOf pos chunks := by
  induction chunks generalizing pos with
  | nil => exact Nat.le_refl _
  | cons chunk rest ih => exact Nat.le_trans (Nat.le_trans h.1 (Nat.le_add_right _ _)) (ih h.2)

/-- Every chunk lies between the beginning and the end. -/
theorem Ordered.bounds {pos : Nat} {chunks : List (Nat × List α)} (h : Ordered pos chunks) :
    ∀ chunk ∈ chunks, pos ≤ chunk.1 ∧ chunk.1 + chunk.2.length ≤ endOf pos chunks := by
  induction chunks generalizing pos with
  | nil => exact fun chunk hc => absurd hc List.not_mem_nil
  | cons first rest ih =>
    intro chunk hc
    rcases List.mem_cons.mp hc with rfl | hc
    · exact ⟨h.1, h.2.le_endOf⟩
    · obtain ⟨hlo, hhi⟩ := ih h.2 chunk hc
      exact ⟨Nat.le_trans (Nat.le_trans h.1 (Nat.le_add_right _ _)) hlo, hhi⟩

/-- Chunks in order do not overlap. -/
theorem Ordered.pairwise {pos : Nat} {chunks : List (Nat × List α)} (h : Ordered pos chunks) :
    chunks.Pairwise fun a b => a.1 + a.2.length ≤ b.1 := by
  induction chunks generalizing pos with
  | nil => exact List.Pairwise.nil
  | cons first rest ih =>
    exact List.pairwise_cons.mpr ⟨fun chunk hc => (h.2.bounds chunk hc).1, ih h.2⟩

theorem length_emitAll {fill : α} {out : List α} {chunks : List (Nat × List α)}
    (h : Ordered out.length chunks) :
    (emitAll fill out chunks).length = endOf out.length chunks := by
  induction chunks generalizing out with
  | nil => rfl
  | cons chunk rest ih =>
    have hlen := length_emit fill chunk h.1
    rw [emitAll, List.foldl_cons, ← emitAll, ih (hlen ▸ h.2), hlen]
    rfl

/-- What an image begins with stays where it is. -/
theorem sliceAt_emitAll_of {fill : α} {out m : List α} {off len : Nat}
    (h : sliceAt out off len = some m) (chunks : List (Nat × List α)) :
    sliceAt (emitAll fill out chunks) off len = some m := by
  induction chunks generalizing out with
  | nil => exact h
  | cons chunk rest ih =>
    rw [emitAll, List.foldl_cons, ← emitAll]
    apply ih
    rw [emit, padTo]
    exact sliceAt_append_right (sliceAt_append_right h _) _

/-- Every chunk is found at its offset. -/
theorem sliceAt_emitAll {fill : α} {out : List α} {chunks : List (Nat × List α)}
    (h : Ordered out.length chunks) :
    ∀ chunk ∈ chunks, sliceAt (emitAll fill out chunks) chunk.1 chunk.2.length = some chunk.2 := by
  induction chunks generalizing out with
  | nil => exact fun chunk hc => absurd hc List.not_mem_nil
  | cons first rest ih =>
    intro chunk hc
    rw [emitAll, List.foldl_cons, ← emitAll]
    rcases List.mem_cons.mp hc with rfl | hc
    · apply sliceAt_emitAll_of
      rw [sliceAt_eq_some_iff]
      exact ⟨padTo fill out chunk.1, [], (List.append_nil _).symm, length_padTo h.1, rfl⟩
    · exact ih (length_emit fill first h.1 ▸ h.2) chunk hc

end Crabbit.Lib
