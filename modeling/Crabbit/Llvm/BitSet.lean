/-
  Crabbit.Llvm.BitSet

  The word-backed bit sets of the mid-end's analyses, and the sets they stand
  for.
-/

import Mathlib.Data.Finset.Filter
import Mathlib.Data.Finset.Lattice.Basic
import Mathlib.Data.Finset.Range
import Mathlib.Data.Finset.SDiff
import Mathlib.Data.List.GetD

namespace Crabbit.Llvm

/-- `BitSet`: words for `nbits` bits. -/
structure BitSet (nbits : Nat) where
  words : List (BitVec 64)
  size_eq : words.length = (nbits + 63) / 64
  deriving DecidableEq

namespace BitSet

variable {nbits : Nat}

variable (nbits) in
def new : BitSet nbits := ⟨List.replicate ((nbits + 63) / 64) 0, List.length_replicate ..⟩

def remove (self : BitSet nbits) (bit : Nat) : BitSet nbits where
  words := self.words.modify (bit / 64) (· &&& ~~~ (1#64 <<< (bit % 64)))
  size_eq := by rw [List.length_modify, self.size_eq]

def contains (self : BitSet nbits) (bit : Nat) : Bool :=
  self.words.getD (bit / 64) 0 &&& 1#64 <<< (bit % 64) != 0

/-- `union_with`: the union, and whether a word changed. -/
def unionWith (self other : BitSet nbits) : BitSet nbits × Bool :=
  ({ words := List.zipWith (· ||| ·) self.words other.words
     size_eq := by rw [List.length_zipWith, self.size_eq, other.size_eq, Nat.min_self] },
   (List.zipWith (fun dst src => dst ||| src != dst) self.words other.words).any id)

/-! ## Members -/

/-- A bit is that of its word. -/
theorem contains_eq (s : BitSet nbits) (k : Nat) :
    s.contains k = (s.words.getD (k / 64) 0).getLsbD (k % 64) := by
  have hlt : k % 64 < 64 := Nat.mod_lt k (by decide)
  have hand := BitVec.and_twoPow (s.words.getD (k / 64) 0) (k % 64)
  rw [BitVec.twoPow_eq] at hand
  have hone : (1#64 <<< (k % 64)) ≠ 0#64 := by
    intro h
    have := congrArg (fun v => BitVec.getLsbD v (k % 64)) h
    rw [← BitVec.twoPow_eq, BitVec.getLsbD_twoPow] at this
    simp [hlt] at this
  rw [contains]
  cases hbit : (s.words.getD (k / 64) 0).getLsbD (k % 64) with
  | false =>
    rw [hbit] at hand
    exact bne_eq_false_iff_eq.mpr hand
  | true =>
    rw [hbit] at hand
    exact bne_iff_ne.mpr fun h => hone (hand.symm.trans h)

theorem lt_of_contains {s : BitSet nbits} {k : Nat} (h : s.contains k = true) :
    k < 64 * ((nbits + 63) / 64) := by
  by_contra hge
  have hlen : s.words.length ≤ k / 64 := by
    rw [s.size_eq]
    omega
  rw [contains_eq, List.getD_eq_default _ _ hlen] at h
  exact Bool.false_ne_true (BitVec.getLsbD_zero.symm.trans h)

theorem ext_contains {s t : BitSet nbits} (h : ∀ k, s.contains k = t.contains k) : s = t := by
  have hlen : s.words.length = t.words.length := s.size_eq.trans t.size_eq.symm
  have hwords : s.words = t.words := by
    refine List.ext_getElem hlen fun i hs ht => BitVec.eq_of_getLsbD_eq fun j hj => ?_
    have hk := h (64 * i + j)
    have hdiv : (64 * i + j) / 64 = i := by omega
    have hmod : (64 * i + j) % 64 = j := by omega
    rw [contains_eq, contains_eq, hdiv, hmod, List.getD_eq_getElem _ _ hs,
      List.getD_eq_getElem _ _ ht] at hk
    exact hk
  cases s
  cases t
  exact (BitSet.mk.injEq ..).mpr hwords

@[simp] theorem contains_new (k : Nat) : (new nbits).contains k = false := by
  have hword : (List.replicate ((nbits + 63) / 64) (0 : BitVec 64)).getD (k / 64) 0 = 0 := by
    rw [List.getD_eq_getElem?_getD, List.getElem?_replicate]
    split <;> rfl
  rw [contains_eq, new, hword]
  exact BitVec.getLsbD_zero

/-- Changing one word. -/
theorem getD_modify (words : List (BitVec 64)) (f : BitVec 64 → BitVec 64) (i j : Nat)
    (hi : i < words.length) :
    (words.modify i f).getD j 0 = if j = i then f (words.getD j 0) else words.getD j 0 := by
  rw [List.getD_eq_getElem?_getD, List.getElem?_modify, List.getD_eq_getElem?_getD]
  by_cases h : j = i
  · subst h
    rw [if_pos rfl, List.getElem?_eq_getElem hi]
    simp
  · have hij : i ≠ j := fun heq => h heq.symm
    rw [if_neg h]
    simp [hij]

/-- The word of a bit in range. -/
theorem word_lt (s : BitSet nbits) {bit : Nat} (h : bit < nbits) : bit / 64 < s.words.length := by
  rw [s.size_eq]
  omega

theorem getLsbD_one_shiftLeft (bit k : Nat) :
    (1#64 <<< (bit % 64)).getLsbD (k % 64) = decide (bit % 64 = k % 64) := by
  have hlt : bit % 64 < 64 := Nat.mod_lt _ (by decide)
  rw [← BitVec.twoPow_eq, BitVec.getLsbD_twoPow, decide_eq_true hlt, Bool.true_and]

theorem contains_remove {s : BitSet nbits} {bit : Nat} (hbit : bit < nbits) (k : Nat) :
    (s.remove bit).contains k = (s.contains k && !decide (k = bit)) := by
  rw [contains_eq, remove, getD_modify _ _ _ _ (s.word_lt hbit), contains_eq]
  by_cases hword : k / 64 = bit / 64
  · have hlt : k % 64 < 64 := Nat.mod_lt _ (by decide)
    have hiff : bit % 64 = k % 64 ↔ k = bit := by omega
    rw [if_pos hword, BitVec.getLsbD_and, BitVec.getLsbD_not, getLsbD_one_shiftLeft,
      decide_eq_decide.mpr hiff, decide_eq_true hlt, Bool.true_and]
  · have hne : k ≠ bit := fun h => hword (h ▸ rfl)
    rw [if_neg hword, decide_eq_false hne, Bool.not_false, Bool.and_true]

theorem contains_unionWith (s t : BitSet nbits) (k : Nat) :
    (s.unionWith t).1.contains k = (s.contains k || t.contains k) := by
  have hlen : s.words.length = t.words.length := s.size_eq.trans t.size_eq.symm
  rw [contains_eq, contains_eq, contains_eq, ← BitVec.getLsbD_or]
  congr 1
  show (List.zipWith (· ||| ·) s.words t.words).getD (k / 64) 0 = _
  rcases Nat.lt_or_ge (k / 64) s.words.length with hlt | hge
  · have hlt' : k / 64 < t.words.length := hlen ▸ hlt
    rw [List.getD_eq_getElem _ _ (by rw [List.length_zipWith, ← hlen, Nat.min_self]; exact hlt),
      List.getElem_zipWith, List.getD_eq_getElem _ _ hlt, List.getD_eq_getElem _ _ hlt']
  · rw [List.getD_eq_default _ _ (by rw [List.length_zipWith, ← hlen, Nat.min_self]; exact hge),
      List.getD_eq_default _ _ hge, List.getD_eq_default _ _ (hlen ▸ hge)]
    rfl

/-! ## Sets of bits -/

/-- The bits of a bit set. -/
def toFinset (s : BitSet nbits) : Finset Nat :=
  (Finset.range (64 * ((nbits + 63) / 64))).filter (s.contains · = true)

@[simp] theorem mem_toFinset {s : BitSet nbits} {k : Nat} :
    k ∈ s.toFinset ↔ s.contains k = true := by
  rw [toFinset, Finset.mem_filter, Finset.mem_range]
  exact and_iff_right_of_imp lt_of_contains

theorem toFinset_injective {s t : BitSet nbits} (h : s.toFinset = t.toFinset) : s = t := by
  refine ext_contains fun k => Bool.eq_iff_iff.mpr ?_
  rw [← mem_toFinset, h, mem_toFinset]

theorem toFinset_new : (new nbits).toFinset = ∅ := by
  ext k
  simp

theorem toFinset_unionWith (s t : BitSet nbits) :
    (s.unionWith t).1.toFinset = s.toFinset ∪ t.toFinset := by
  ext k
  simp [contains_unionWith]

end BitSet

end Crabbit.Llvm
