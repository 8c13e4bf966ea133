/-
  Crabbit.Lib.Bytes

  Byte strings: numbers in little-endian order and the bytes found at an
  offset of a longer string.
-/

import Mathlib.Data.List.Basic
import Mathlib.Tactic.Ring

namespace Crabbit.Lib

/-! ## Little-endian numbers -/

/-- The `n` low bytes of `x`, least significant first. -/
def toLE : Nat → Nat → List UInt8
  | 0, _ => []
  | n + 1, x => UInt8.ofNat x :: toLE n (x / 256)

/-- The number a byte string spells, least significant byte first. -/
def ofLE : List UInt8 → Nat
  | [] => 0
  | b :: bs => b.toNat + 256 * ofLE bs

@[simp] theorem length_toLE (n x : Nat) : (toLE n x).length = n := by
  induction n generalizing x with
  | zero => rfl
  | succ n ih => rw [toLE, List.length_cons, ih]

theorem ofLE_toLE (n x : Nat) : ofLE (toLE n x) = x % 256 ^ n := by
  induction n generalizing x with
  | zero => rw [Nat.pow_zero, Nat.mod_one]; rfl
  | succ n ih =>
    have hbyte : (UInt8.ofNat x).toNat = x % 256 := UInt8.toNat_ofNat'
    rw [toLE, ofLE, ih, hbyte, Nat.pow_succ', Nat.mod_mul]

/-- A number that fits reads back as itself. -/
theorem ofLE_toLE_of_lt {n x : Nat} (h : x < 256 ^ n) : ofLE (toLE n x) = x := by
  rw [ofLE_toLE, Nat.mod_eq_of_lt h]

/-- A byte string is the bytes of the number it spells. -/
theorem toLE_ofLE (bs : List UInt8) : toLE bs.length (ofLE bs) = bs := by
  induction bs with
  | nil => rfl
  | cons b bs ih =>
    have hb := b.toNat_lt
    have hlow : UInt8.ofNat (b.toNat + 256 * ofLE bs) = b := by
      apply UInt8.toNat_inj.mp
      rw [UInt8.toNat_ofNat']
      omega
    have hhigh : (b.toNat + 256 * ofLE bs) / 256 = ofLE bs := by omega
    rw [List.length_cons, ofLE, toLE, hlow, hhigh, ih]

theorem ofLE_lt : ∀ bs : List UInt8, ofLE bs < 256 ^ bs.length
  | [] => by simp [ofLE]
  | b :: bs => by
      have ih := ofLE_lt bs
      have hb := b.toNat_lt
      rw [ofLE, List.length_cons, Nat.pow_succ']
      omega

/-! ## Packed numbers -/

/-- Two numbers in one, the lower of `k` bits. -/
theorem shiftLeft_or_div {k low : Nat} (high : Nat) (h : low < 2 ^ k) :
    ((high <<< k) ||| low) / 2 ^ k = high := by
  rw [← Nat.shiftLeft_add_eq_or_of_lt h, Nat.shiftLeft_eq, Nat.add_comm,
    Nat.add_mul_div_right _ _ (Nat.two_pow_pos k), Nat.div_eq_of_lt h, Nat.zero_add]

theorem shiftLeft_or_mod {k low : Nat} (high : Nat) (h : low < 2 ^ k) :
    ((high <<< k) ||| low) % 2 ^ k = low := by
  rw [← Nat.shiftLeft_add_eq_or_of_lt h, Nat.shiftLeft_eq, Nat.add_comm, Nat.add_mul_mod_self_right,
    Nat.mod_eq_of_lt h]

theorem shiftLeft_or_lt {k n low high : Nat} (hlow : low < 2 ^ k) (hhigh : high < 2 ^ n) :
    ((high <<< k) ||| low) < 2 ^ (n + k) := by
  rw [← Nat.shiftLeft_add_eq_or_of_lt hlow, Nat.shiftLeft_eq, Nat.pow_add]
  have hmul := Nat.mul_le_mul_right (2 ^ k) (Nat.succ_le_of_lt hhigh)
  rw [Nat.succ_mul] at hmul
  omega

/-! ## Slices -/

variable {α : Type}

/-- The `len` items of `bs` from `off` on, if there are that many. -/
def sliceAt (bs : List α) (off len : Nat) : Option (List α) :=
  if off + len ≤ bs.length then some ((bs.drop off).take len) else none

theorem sliceAt_eq_some_iff {bs m : List α} {off len : Nat} :
    sliceAt bs off len = some m ↔
      ∃ pre post, bs = pre ++ m ++ post ∧ pre.length = off ∧ m.length = len := by
  rw [sliceAt]
  constructor
  · intro h
    split at h
    · next hle =>
      cases h
      refine ⟨bs.take off, (bs.drop off).drop len, ?_, ?_, ?_⟩
      · rw [List.append_assoc, List.take_append_drop, List.take_append_drop]
      · rw [List.length_take]
        omega
      · rw [List.length_take, List.length_drop]
        omega
    · cases h
  · rintro ⟨pre, post, rfl, rfl, rfl⟩
    rw [if_pos (by simp only [List.length_append]; omega), List.append_assoc, List.drop_left,
      List.take_left]

theorem sliceAt_append (pre m post : List α) :
    sliceAt (pre ++ m ++ post) pre.length m.length = some m :=
  sliceAt_eq_some_iff.mpr ⟨pre, post, rfl, rfl, rfl⟩

/-- A part of a slice is found where the slice is, so much further on. -/
theorem sliceAt_part {bs a m c : List α} {off len : Nat}
    (h : sliceAt bs off len = some (a ++ m ++ c)) :
    sliceAt bs (off + a.length) m.length = some m := by
  obtain ⟨pre, post, rfl, rfl, -⟩ := sliceAt_eq_some_iff.mp h
  rw [sliceAt_eq_some_iff]
  refine ⟨pre ++ a, c ++ post, ?_, List.length_append, rfl⟩
  simp only [List.append_assoc]

/-- What is found in a string is found in every extension of it. -/
theorem sliceAt_append_right {bs m : List α} {off len : Nat} (h : sliceAt bs off len = some m)
    (more : List α) : sliceAt (bs ++ more) off len = some m := by
  obtain ⟨pre, post, rfl, rfl, rfl⟩ := sliceAt_eq_some_iff.mp h
  rw [sliceAt_eq_some_iff]
  refine ⟨pre, post ++ more, ?_, rfl, rfl⟩
  simp only [List.append_assoc]

end Crabbit.Lib
