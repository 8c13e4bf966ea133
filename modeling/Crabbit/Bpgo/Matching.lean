/-
  Crabbit.Bpgo.Matching

  The pairs two key sequences are matched by: they are of equal keys, they
  increase on both sides, and unless the sequences are too long there are as
  many of them as a longest common subsequence has elements.
-/

import Crabbit.Bpgo.Align
import Crabbit.Lib.CommonSubsequence
import Mathlib.Data.List.Infix

namespace Crabbit.Bpgo

open Crabbit.Lib

/-! ## The table -/

/-- The entries of a row: one for every suffix of `b`. -/
def lcsRow (a b : List String) : List Nat := b.tails.map (lcsLength a)

theorem lcsRow_nil_left (b : List String) : lcsRow [] b = List.replicate (b.length + 1) 0 := by
  rw [lcsRow, List.eq_replicate_iff]
  refine ⟨by rw [List.length_map, List.length_tails], fun n hn => ?_⟩
  obtain ⟨suffix, -, rfl⟩ := List.mem_map.mp hn
  exact lcsLength_nil_left suffix

theorem lcsRow_cons (a : List String) (k : String) (b : List String) :
    lcsRow a (k :: b) = lcsLength a (k :: b) :: lcsRow a b := rfl

theorem headD_lcsRow (a b : List String) : (lcsRow a b).headD 0 = lcsLength a b := by
  cases b <;> rfl

theorem dpRow_lcsRow (key : String) (a b : List String) :
    dpRow key b (lcsRow a b) = lcsRow (key :: a) b := by
  induction b with
  | nil =>
    rw [lcsRow, lcsRow, List.tails, List.map_singleton, List.map_singleton, lcsLength_nil_right,
      lcsLength_nil_right]
    rfl
  | cons k b ih =>
    rw [lcsRow_cons, lcsRow_cons, dpRow, ih, headD_lcsRow, headD_lcsRow, lcsLength_cons_cons]

theorem dpTable_eq (a b : List String) :
    dpTable b a = a.tails.map fun suffix => lcsRow suffix b := by
  induction a with
  | nil =>
    rw [dpTable, ← lcsRow_nil_left]
    rfl
  | cons key a ih =>
    have hhead : (a.tails.map fun suffix => lcsRow suffix b).headD [] = lcsRow a b := by
      cases a <;> rfl
    rw [dpTable, ih, hhead, dpRow_lcsRow]
    rfl

/-- The entry at `i` and `j` is of what is left of the sequences there. -/
theorem dpTable_entry {a b : List String} {i j : Nat} (hi : i ≤ a.length) (hj : j ≤ b.length) :
    ((dpTable b a).getD i []).getD j 0 = lcsLength (a.drop i) (b.drop j) := by
  have hrow : (dpTable b a).getD i [] = lcsRow (a.drop i) b := by
    rw [dpTable_eq, List.getD_eq_getElem?_getD, List.getElem?_map, List.getElem?_eq_getElem
      (by rw [List.length_tails]; omega), List.getElem_tails]
    rfl
  rw [hrow, lcsRow, List.getD_eq_getElem?_getD, List.getElem?_map, List.getElem?_eq_getElem
    (by rw [List.length_tails]; omega), List.getElem_tails]
  rfl

/-! ## The pairs -/

/-- Reading the pairs off the table finds as many as the table says there are. -/
theorem length_readPairs (a b : List String) : ∀ fuel i j, i ≤ a.length → j ≤ b.length →
    a.length - i + (b.length - j) ≤ fuel →
    (readPairs a b (dpTable b a) fuel i j).length = lcsLength (a.drop i) (b.drop j) := by
  intro fuel
  induction fuel with
  | zero =>
    intro i j hi hj hfuel
    rw [List.drop_of_length_le (by omega : a.length ≤ i), lcsLength_nil_left]
    rfl
  | succ fuel ih =>
    intro i j hi hj hfuel
    rw [readPairs]
    split
    · next hin =>
      have hlcs := lcsLength_cons_cons a[i] b[j] (a.drop (i + 1)) (b.drop (j + 1))
      rw [← List.drop_eq_getElem_cons hin.1, ← List.drop_eq_getElem_cons hin.2] at hlcs
      rw [List.getElem?_eq_getElem hin.1, List.getElem?_eq_getElem hin.2, hlcs]
      by_cases heq : a[i] = b[j]
      · rw [if_pos heq, if_pos (congrArg some heq), List.length_cons,
          ih (i + 1) (j + 1) (by omega) (by omega) (by omega)]
      · have hne : ¬ some a[i] = some b[j] := fun h => heq (Option.some.inj h)
        rw [if_neg heq, if_neg hne, dpTable_entry (by omega : i + 1 ≤ a.length) hj,
          dpTable_entry hi (by omega : j + 1 ≤ b.length)]
        split
        · next hge => rw [ih (i + 1) j (by omega) hj (by omega), Nat.max_eq_left hge]
        · next hlt => rw [ih i (j + 1) hi (by omega) (by omega), Nat.max_eq_right (by omega)]
    · next hout =>
      by_cases hend : a.length ≤ i
      · rw [List.drop_of_length_le hend, lcsLength_nil_left]
        rfl
      · rw [List.drop_of_length_le (by omega : b.length ≤ j), lcsLength_nil_right]
        rfl

theorem readPairs_keys (a b : List String) (dp : List (List Nat)) : ∀ fuel i j,
    ∀ p ∈ readPairs a b dp fuel i j, a[p.1]? = b[p.2]? := by
  intro fuel
  induction fuel with
  | zero =>
    intro i j p hp
    exact absurd hp List.not_mem_nil
  | succ fuel ih =>
    intro i j p hp
    rw [readPairs] at hp
    split at hp
    · split at hp
      · next heq =>
        rcases List.mem_cons.mp hp with rfl | hp
        · exact heq
        · exact ih _ _ p hp
      · split at hp
        · exact ih _ _ p hp
        · exact ih _ _ p hp
    · exact absurd hp List.not_mem_nil

/-- The keys of a pair that the greedy match makes behind `done`. -/
theorem greedyPairs_keys (b : List String) : ∀ (a done : List String) (j : Nat),
    ∀ p ∈ greedyPairs b a done.length j, (done ++ a)[p.1]? = b[p.2]? := by
  intro a
  induction a with
  | nil =>
    intro done j p hp
    exact absurd hp List.not_mem_nil
  | cons key a ih =>
    intro done j p hp
    have hrest : ∀ j, ∀ p ∈ greedyPairs b a (done.length + 1) j,
        (done ++ key :: a)[p.1]? = b[p.2]? := by
      intro j p hp
      have h := ih (done ++ [key]) j p (by rwa [List.length_append])
      rwa [List.append_assoc] at h
    rw [greedyPairs] at hp
    split at hp
    · next off hoff =>
      rcases List.mem_cons.mp hp with rfl | hp
      · obtain ⟨hlt, hkey, -⟩ := List.findIdx?_eq_some_iff_getElem.mp hoff
        rw [List.getElem_drop, beq_iff_eq] at hkey
        rw [List.length_drop] at hlt
        rw [List.getElem?_append_right (Nat.le_refl _), Nat.sub_self, List.getElem?_cons_zero,
          List.getElem?_eq_getElem (by omega), hkey]
      · exact hrest _ p hp
    · exact hrest _ p hp

theorem matching_keys (a b : List String) : ∀ p ∈ matching a b, a[p.1]? = b[p.2]? := by
  unfold matching
  split
  · exact greedyPairs_keys b a [] 0
  · exact readPairs_keys a b _ _ 0 0

theorem length_matching {a b : List String} (h : a.length * b.length ≤ LCS_LIMIT) :
    (matching a b).length = lcsLength a b := by
  rw [matching, if_neg (by omega), length_readPairs a b _ 0 0 (by omega) (by omega) (by omega)]
  rfl

/-! ## Increasing on both sides -/

theorem Ascending.swap {n m : Nat} : ∀ {pairs : List (Nat × Nat)} {i j : Nat},
    Ascending n m i j pairs → Ascending m n j i (pairs.map Prod.swap)
  | [], _, _, _ => trivial
  | _ :: _, _, _, h => ⟨h.2.2.1, h.2.2.2.1, h.1, h.2.1, h.2.2.2.2.swap⟩

theorem Ascending.snd_lt {n m i j : Nat} {pairs : List (Nat × Nat)} (h : Ascending n m i j pairs) :
    ∀ p ∈ pairs, p.2 < m := by
  intro p hp
  exact h.swap.fst_lt p.swap (List.mem_map_of_mem hp)

/-- The elements at ascending indices are a subsequence. -/
theorem Ascending.sublist_keys {m : Nat} {keys : List String} :
    ∀ {pairs : List (Nat × Nat)} {i j : Nat}, Ascending keys.length m i j pairs →
    (pairs.map fun p => keys.getD p.1 "").Sublist (keys.drop i)
  | [], _, _, _ => List.nil_sublist _
  | p :: rest, i, j, h => by
    obtain ⟨hi, hlt, -, -, hrest⟩ := h
    have hcons : keys.drop p.1 = keys.getD p.1 "" :: keys.drop (p.1 + 1) := by
      rw [List.drop_eq_getElem_cons hlt, ← List.getElem_eq_getD ""]
    have hhere : (keys.getD p.1 "" :: rest.map fun p => keys.getD p.1 "").Sublist
        (keys.drop p.1) := by
      rw [hcons]
      exact hrest.sublist_keys.cons_cons _
    exact hhere.trans (List.drop_sublist_drop_left keys hi)

/-- Matched sequences that are not too long have as many pairs as a longest
    common subsequence has elements. -/
theorem matching_longestCommon {a b : List String} (h : a.length * b.length ≤ LCS_LIMIT) :
    LongestCommon a b (matching a b).length := by
  have hascending := matching_ascending a b
  refine ⟨⟨(matching a b).map fun p => a.getD p.1 "", ?_, ?_, List.length_map _⟩, fun l ha hb => ?_⟩
  · exact hascending.sublist_keys
  · -- The keys are those at the other ends as well.
    have hkeys : ((matching a b).map fun p => a.getD p.1 "") =
        ((matching a b).map Prod.swap).map fun p => b.getD p.1 "" := by
      rw [List.map_map]
      apply List.map_congr_left
      intro p hp
      show a.getD p.1 "" = b.getD p.2 ""
      rw [List.getD_eq_getElem?_getD, List.getD_eq_getElem?_getD, matching_keys a b p hp]
    rw [hkeys]
    exact hascending.swap.sublist_keys
  · rw [length_matching h]
    exact length_le_lcsLength a b ha hb

end Crabbit.Bpgo
