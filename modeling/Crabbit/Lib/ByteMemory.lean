/-
  Crabbit.Lib.ByteMemory

  A byte-addressed memory: reading and writing of byte strings and of 64-bit
  little-endian words.
-/

import Crabbit.Lib.Bytes
import Mathlib.Logic.Function.Basic

namespace Crabbit.Lib

abbrev ByteMemory := Int → UInt8

namespace ByteMemory

/-- The `n` bytes from address `a` on. -/
def load (mem : ByteMemory) (a : Int) : Nat → List UInt8
  | 0 => []
  | n + 1 => mem a :: load mem (a + 1) n

@[simp] theorem length_load (mem : ByteMemory) (a : Int) (n : Nat) : (load mem a n).length = n := by
  induction n generalizing a with
  | zero => rfl
  | succ n ih => rw [load, List.length_cons, ih]

/-- A part of what is read is what is read there. -/
theorem take_drop_load (mem : ByteMemory) {n k m : Nat} : ∀ {a : Int}, k + m ≤ n →
    ((load mem a n).drop k).take m = load mem (a + k) m := by
  induction k generalizing n with
  | zero =>
    intro a h
    rw [List.drop_zero, Int.natCast_zero, Int.add_zero]
    induction m generalizing a n with
    | zero => rfl
    | succ m ih =>
      obtain ⟨n, rfl⟩ : ∃ i, n = i + 1 := ⟨n - 1, by omega⟩
      rw [load, load, List.take_succ_cons, ih (by omega)]
  | succ k ih =>
    intro a h
    obtain ⟨n, rfl⟩ : ∃ i, n = i + 1 := ⟨n - 1, by omega⟩
    rw [load, List.drop_succ_cons, ih (by omega)]
    congr 1
    omega

/-- Memory with the bytes `bs` written from address `a` on. -/
def store (mem : ByteMemory) (a : Int) : List UInt8 → ByteMemory
  | [] => mem
  | b :: bs => Function.update (store mem (a + 1) bs) a b

/-- Bytes outside the written range are unchanged. -/
theorem store_of_notMem (mem : ByteMemory) (bs : List UInt8) : ∀ {a x : Int},
    (x < a ∨ a + bs.length ≤ x) → store mem a bs x = mem x := by
  induction bs with
  | nil => intro a x h; rfl
  | cons b bs ih =>
    intro a x h
    rw [List.length_cons] at h
    rw [store, Function.update_of_ne (by omega)]
    exact ih (by omega)

theorem load_store_self (mem : ByteMemory) (bs : List UInt8) : ∀ a : Int,
    load (store mem a bs) a bs.length = bs := by
  suffices h : ∀ (bs : List UInt8) (mem mem' : ByteMemory) (a : Int),
      (∀ x, a ≤ x → mem' x = store mem a bs x) → load mem' a bs.length = bs from
    fun a => h bs mem _ a fun _ _ => rfl
  intro bs
  induction bs with
  | nil => intro mem mem' a h; rfl
  | cons b bs ih =>
    intro mem mem' a h
    rw [List.length_cons, load, h a (Int.le_refl a), store, Function.update_self]
    congr 1
    refine ih mem mem' (a + 1) fun x hx => ?_
    rw [h x (by omega), store, Function.update_of_ne (by omega)]

/-- What is read depends on the bytes of the range only. -/
theorem load_congr {mem mem' : ByteMemory} (n : Nat) : ∀ {a : Int},
    (∀ x, a ≤ x → x < a + n → mem' x = mem x) → load mem' a n = load mem a n := by
  induction n with
  | zero => intro a h; rfl
  | succ n ih =>
    intro a h
    rw [load, load, h a (Int.le_refl a) (by omega), ih fun x hx hlt => h x (by omega) (by omega)]

/-- The same bytes elsewhere are read as the same. -/
theorem load_shift {mem mem' : ByteMemory} (n : Nat) : ∀ {a a' : Int},
    (∀ i : Nat, i < n → mem' (a' + i) = mem (a + i)) → load mem' a' n = load mem a n := by
  induction n with
  | zero => intro a a' h; rfl
  | succ n ih =>
    intro a a' h
    have hfirst := h 0 (Nat.zero_lt_succ n)
    rw [Int.natCast_zero, Int.add_zero, Int.add_zero] at hfirst
    rw [load, load, hfirst, ih fun i hi => ?_]
    have hnext := h (i + 1) (Nat.succ_lt_succ hi)
    rw [Nat.cast_succ] at hnext
    rw [show a' + 1 + (i : Int) = a' + (i + 1) by omega, hnext]
    congr 1
    omega

/-- Equal reads are of equal bytes. -/
theorem eq_of_load_eq {mem mem' : ByteMemory} {n : Nat} : ∀ {a a' : Int},
    load mem' a' n = load mem a n → ∀ i : Nat, i < n → mem' (a' + i) = mem (a + i) := by
  induction n with
  | zero => intro a a' _ i hi; exact absurd hi (Nat.not_lt_zero i)
  | succ n ih =>
    intro a a' h i hi
    rw [load, load] at h
    obtain ⟨hfirst, hrest⟩ := List.cons.inj h
    cases i with
    | zero =>
      rw [Int.natCast_zero, Int.add_zero, Int.add_zero]
      exact hfirst
    | succ i =>
      have hnext := ih hrest i (Nat.lt_of_succ_lt_succ hi)
      rw [Nat.cast_succ, show a' + ((i : Int) + 1) = a' + 1 + i by omega, hnext]
      congr 1
      omega

/-- Writing what is there changes nothing. -/
theorem store_load (mem : ByteMemory) (n : Nat) : ∀ a : Int, store mem a (load mem a n) = mem := by
  induction n with
  | zero => intro a; rfl
  | succ n ih =>
    intro a
    rw [load, store, ih]
    exact Function.update_eq_self a mem

/-- What is copied is at its destination. -/
theorem store_load_apply (mem src : ByteMemory) {a b : Int} {n i : Nat} (h : i < n) :
    store mem b (load src a n) (b + i) = src (a + i) := by
  have hload := load_store_self mem (load src a n) b
  rw [length_load] at hload
  exact eq_of_load_eq hload i h

/-- The same writes keep what is the same. -/
theorem store_congr_apply {mem mem' : ByteMemory} {x : Int} (h : mem' x = mem x)
    (bs : List UInt8) (a : Int) : store mem' a bs x = store mem a bs x := by
  induction bs generalizing a with
  | nil => exact h
  | cons b bs ih => simp only [store, Function.update_apply, ih]

/-- A write hides what was there. -/
theorem store_hides {mem mem' : ByteMemory} {a : Int} (h : ∀ x, x ≠ a → mem' x = mem x)
    {bs : List UInt8} (hbs : bs ≠ []) : store mem' a bs = store mem a bs := by
  obtain ⟨b, bs, rfl⟩ := List.exists_cons_of_ne_nil hbs
  funext x
  by_cases hx : x = a
  · rw [store, store, hx, Function.update_self, Function.update_self]
  · exact store_congr_apply (h x hx) _ a

/-! ## Words -/

def loadWord (mem : ByteMemory) (a : Int) : BitVec 64 :=
  BitVec.ofNat 64 (ofLE (load mem a 8))

def storeWord (mem : ByteMemory) (a : Int) (v : BitVec 64) : ByteMemory :=
  store mem a (toLE 8 v.toNat)

@[simp] theorem loadWord_storeWord (mem : ByteMemory) (a : Int) (v : BitVec 64) :
    loadWord (storeWord mem a v) a = v := by
  have h := load_store_self mem (toLE 8 v.toNat) a
  rw [length_toLE] at h
  rw [loadWord, storeWord, h, ofLE_toLE_of_lt (by exact v.isLt), BitVec.ofNat_toNat,
    BitVec.setWidth_eq]

theorem loadWord_congr {mem mem' : ByteMemory} {a : Int}
    (h : ∀ x, a ≤ x → x < a + 8 → mem' x = mem x) : loadWord mem' a = loadWord mem a := by
  rw [loadWord, loadWord, load_congr 8 h]

theorem storeWord_of_notMem (mem : ByteMemory) (v : BitVec 64) {a x : Int}
    (h : x < a ∨ a + 8 ≤ x) : storeWord mem a v x = mem x := by
  refine store_of_notMem mem _ ?_
  rw [length_toLE]
  exact h

end ByteMemory

end Crabbit.Lib
