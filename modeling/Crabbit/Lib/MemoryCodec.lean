/-
  Crabbit.Lib.MemoryCodec

  Typed values in a byte-addressed memory.  A codec reads and writes the values
  of one type; records are built of parts that lie apart.
-/

import Crabbit.Lib.ByteMemory
import Mathlib.Data.List.Forall2
import Mathlib.Data.Set.Card

namespace Crabbit.Lib

/-- A value: the bits of a scalar, nothing, or the values of the fields of an
    aggregate. -/
inductive Val where
  | scalar (bits : Nat)
  | unit
  | aggregate (fields : List Val)

/-- How the values of a type lie in `size` bytes. -/
structure MemoryCodec where
  size : Nat
  fits : Val → Prop
  read : ByteMemory → Int → Val
  write : Val → ByteMemory → Int → ByteMemory
  fits_read : ∀ mem a, fits (read mem a)
  read_congr : ∀ {mem mem' : ByteMemory} {a : Int},
    (∀ x, a ≤ x → x < a + size → mem' x = mem x) → read mem' a = read mem a
  write_frame : ∀ v mem {a x : Int}, (x < a ∨ a + size ≤ x) → write v mem a x = mem x
  read_write : ∀ {v}, fits v → ∀ mem a, read (write v mem a) a = v

namespace MemoryCodec

/-! ## Scalars -/

/-- A number of `n` bytes. -/
def scalar (n : Nat) : MemoryCodec where
  size := n
  fits v := ∃ bits < 256 ^ n, v = .scalar bits
  read mem a := .scalar (ofLE (mem.load a n))
  write
    | .scalar bits, mem, a => mem.store a (toLE n bits)
    | _, mem, _ => mem
  fits_read mem a := by
    have h := ofLE_lt (mem.load a n)
    rw [ByteMemory.length_load] at h
    exact ⟨_, h, rfl⟩
  read_congr h := congrArg (fun bytes => Val.scalar (ofLE bytes)) (ByteMemory.load_congr n h)
  write_frame v mem a x h := by
    cases v with
    | scalar bits =>
      apply ByteMemory.store_of_notMem
      rw [length_toLE]
      exact h
    | unit => rfl
    | aggregate => rfl
  read_write h mem a := by
    obtain ⟨bits, hlt, rfl⟩ := h
    have hload := ByteMemory.load_store_self mem (toLE n bits) a
    rw [length_toLE] at hload
    show Val.scalar (ofLE ((mem.store a (toLE n bits)).load a n)) = .scalar bits
    rw [hload, ofLE_toLE_of_lt hlt]

/-- Nothing, in no bytes. -/
def none : MemoryCodec where
  size := 0
  fits v := v = .unit
  read _ _ := .unit
  write _ mem _ := mem
  fits_read _ _ := rfl
  read_congr _ := rfl
  write_frame _ _ _ _ _ := rfl
  read_write h _ _ := h.symm

/-! ## Records -/

/-- A part of a record. -/
structure Part where
  offset : Nat
  codec : MemoryCodec

def Part.stop (part : Part) : Nat := part.offset + part.codec.size

def readParts (parts : List Part) (mem : ByteMemory) (a : Int) : List Val :=
  parts.map fun part => part.codec.read mem (a + part.offset)

def writeParts : List Part → List Val → ByteMemory → Int → ByteMemory
  | part :: parts, v :: vs, mem, a =>
      writeParts parts vs (part.codec.write v mem (a + part.offset)) a
  | _, _, mem, _ => mem

/-- Bytes outside all parts are unchanged. -/
theorem writeParts_frame {parts : List Part} {x a : Int}
    (h : ∀ part ∈ parts, x < a + part.offset ∨ a + part.stop ≤ x) (vs : List Val)
    (mem : ByteMemory) : writeParts parts vs mem a x = mem x := by
  induction parts generalizing vs mem with
  | nil => rfl
  | cons part parts ih =>
    obtain ⟨hpart, hparts⟩ := List.forall_mem_cons.mp h
    cases vs with
    | nil => rfl
    | cons v vs =>
      rw [writeParts, ih hparts, part.codec.write_frame v mem]
      rw [Part.stop, Nat.cast_add] at hpart
      omega

/-- Parts in the order of their places. -/
def Apart (parts : List Part) : Prop := parts.Pairwise fun p q => p.stop ≤ q.offset

theorem readParts_congr {parts : List Part} {size : Nat} {mem mem' : ByteMemory} {a : Int}
    (hsize : ∀ part ∈ parts, part.stop ≤ size)
    (h : ∀ x, a ≤ x → x < a + size → mem' x = mem x) :
    readParts parts mem' a = readParts parts mem a := by
  apply List.map_congr_left
  intro part hmem
  have hstop := hsize part hmem
  rw [Part.stop] at hstop
  exact part.codec.read_congr fun x hle hlt => h x (by omega) (by omega)

theorem readParts_writeParts {parts : List Part} {vs : List Val} (hapart : Apart parts)
    (hfits : List.Forall₂ (fun (part : Part) v => part.codec.fits v) parts vs) (mem : ByteMemory)
    (a : Int) : readParts parts (writeParts parts vs mem a) a = vs := by
  induction hfits generalizing mem with
  | nil => rfl
  | @cons part v parts vs hv hvs ih =>
    obtain ⟨hbefore, hapart⟩ := List.pairwise_cons.mp hapart
    -- The parts behind do not write to this one.
    have hkeep : part.codec.read (writeParts (part :: parts) (v :: vs) mem a) (a + part.offset) =
        part.codec.read (part.codec.write v mem (a + part.offset)) (a + part.offset) := by
      apply part.codec.read_congr
      intro x _ hlt
      rw [writeParts]
      apply writeParts_frame
      intro other hother
      have hle := hbefore other hother
      rw [Part.stop] at hle
      omega
    rw [readParts, List.map_cons, hkeep, part.codec.read_write hv]
    exact congrArg (v :: ·) (ih hapart _)

/-- A record of parts that lie apart, within `size` bytes. -/
def record (parts : List Part) (size : Nat) (hapart : Apart parts)
    (hsize : ∀ part ∈ parts, part.stop ≤ size) : MemoryCodec where
  size := size
  fits v := ∃ vs, v = .aggregate vs ∧
    List.Forall₂ (fun (part : Part) v => part.codec.fits v) parts vs
  read mem a := .aggregate (readParts parts mem a)
  write
    | .aggregate vs, mem, a => writeParts parts vs mem a
    | _, mem, _ => mem
  fits_read mem a := by
    refine ⟨_, rfl, ?_⟩
    rw [readParts, List.forall₂_map_right_iff, List.forall₂_same]
    exact fun part _ => part.codec.fits_read mem _
  read_congr h := congrArg Val.aggregate (readParts_congr hsize h)
  write_frame v mem a x h := by
    cases v with
    | scalar => rfl
    | unit => rfl
    | aggregate vs =>
      apply writeParts_frame
      intro part hmem
      have hstop := hsize part hmem
      omega
  read_write h mem a := by
    obtain ⟨vs, rfl, hvs⟩ := h
    exact congrArg Val.aggregate (readParts_writeParts hapart hvs mem a)

/-! ## Writing back, and reading elsewhere -/

/-- Writing the value that is there changes nothing. -/
def WritesBack (codec : MemoryCodec) : Prop :=
  ∀ mem a, codec.write (codec.read mem a) mem a = mem

/-- The same bytes are the same value at any address. -/
def Movable (codec : MemoryCodec) : Prop :=
  ∀ {mem mem' : ByteMemory} {a a' : Int},
    (∀ i : Nat, i < codec.size → mem' (a' + i) = mem (a + i)) → codec.read mem' a' = codec.read mem a

theorem writeParts_readParts {parts : List Part} (h : ∀ part ∈ parts, part.codec.WritesBack)
    (mem : ByteMemory) (a : Int) : writeParts parts (readParts parts mem a) mem a = mem := by
  induction parts with
  | nil => rfl
  | cons part parts ih =>
    obtain ⟨hpart, hparts⟩ := List.forall_mem_cons.mp h
    rw [readParts, List.map_cons, writeParts, hpart]
    exact ih hparts

/-! ## One part of a record -/

/-- A record written back with one part replaced: only the part is written. -/
theorem writeParts_set {parts : List Part} (hapart : Apart parts)
    (hback : ∀ part ∈ parts, part.codec.WritesBack) {i : Nat} {part : Part}
    (hpart : parts[i]? = some part) (v : Val) (mem : ByteMemory) (a : Int) :
    writeParts parts ((readParts parts mem a).set i v) mem a =
      part.codec.write v mem (a + part.offset) := by
  induction parts generalizing i with
  | nil => cases hpart
  | cons first parts ih =>
    obtain ⟨hbefore, hapart⟩ := List.pairwise_cons.mp hapart
    obtain ⟨hfirst, hback⟩ := List.forall_mem_cons.mp hback
    cases i with
    | zero =>
      obtain rfl := Option.some.inj hpart
      -- The parts behind are where nothing was written.
      have hrest : readParts parts (first.codec.write v mem (a + first.offset)) a =
          readParts parts mem a := by
        refine List.map_congr_left fun other hother => other.codec.read_congr fun x hle _ => ?_
        have hstop := hbefore other hother
        rw [Part.stop] at hstop
        exact first.codec.write_frame v mem (Or.inr (by omega))
      rw [readParts, List.map_cons, List.set_cons_zero, writeParts]
      exact (congrArg (writeParts parts · _ a) hrest.symm).trans
        (writeParts_readParts hback _ a)
    | succ i =>
      rw [readParts, List.map_cons, List.set_cons_succ, writeParts, hfirst]
      exact ih hapart hback hpart

/-! ## No bytes -/

section Empty

variable {codec : MemoryCodec} (h : codec.size = 0)
include h

theorem write_of_size_zero (v : Val) (mem : ByteMemory) (a : Int) : codec.write v mem a = mem := by
  funext x
  apply codec.write_frame
  rw [h]
  omega

/-- A codec of no bytes has one value. -/
theorem read_of_size_zero {v : Val} (hv : codec.fits v) (mem : ByteMemory) (a : Int) :
    codec.read mem a = v := by
  have hread := codec.read_write hv mem a
  rw [write_of_size_zero h] at hread
  exact hread

end Empty

/-! ## The bytes of a value -/

/-- The value is in the bytes at these places: equal bytes there are equal
    values, and no others are written. -/
structure InBytes (codec : MemoryCodec) (places : Set Nat) : Prop where
  lt : ∀ i ∈ places, i < codec.size
  read_eq_iff : ∀ {mem mem' : ByteMemory} {a a' : Int},
    codec.read mem' a' = codec.read mem a ↔ ∀ i ∈ places, mem' (a' + i) = mem (a + i)
  write_of_notMem : ∀ v mem {a x : Int}, (∀ i ∈ places, x ≠ a + i) → codec.write v mem a x = mem x

/-- The places at which a byte makes a difference; padding is at none of them. -/
def places (codec : MemoryCodec) : Set Nat :=
  {i | ∃ mem, codec.read (Function.update mem (i : Int) 1) 0 ≠ codec.read mem 0}

/-- The value is in the bytes that make a difference. -/
def Bytewise (codec : MemoryCodec) : Prop := codec.InBytes codec.places

theorem InBytes.places_eq {codec : MemoryCodec} {s : Set Nat} (h : codec.InBytes s) :
    codec.places = s := by
  ext i
  constructor
  · rintro ⟨mem, hne⟩
    by_contra hi
    refine hne (h.read_eq_iff.mpr fun j hj => Function.update_of_ne ?_ _ _)
    have hji : j ≠ i := fun heq => hi (heq ▸ hj)
    omega
  · refine fun hi => ⟨fun _ => 0, fun heq => ?_⟩
    have hbyte := h.read_eq_iff.mp heq i hi
    rw [Int.zero_add, Function.update_self] at hbyte
    exact absurd hbyte (by decide)

theorem InBytes.bytewise {codec : MemoryCodec} {s : Set Nat} (h : codec.InBytes s) :
    codec.Bytewise := by
  rw [Bytewise, h.places_eq]
  exact h

namespace Bytewise

variable {codec : MemoryCodec} (h : codec.Bytewise)
include h

theorem finite : codec.places.Finite :=
  (Set.finite_lt_nat codec.size).subset fun i hi => h.lt i hi

/-- A value written is in the same bytes everywhere. -/
theorem write_eq {v : Val} (hv : codec.fits v) {mem mem' : ByteMemory} {a a' : Int}
    (hread : codec.read mem' a' = v) {i : Nat} (hi : i ∈ codec.places) :
    mem' (a' + i) = codec.write v mem a (a + i) :=
  h.read_eq_iff.mp (hread.trans (codec.read_write hv mem a).symm) i hi

theorem writesBack : codec.WritesBack := by
  intro mem a
  funext x
  by_cases hx : ∃ i ∈ codec.places, x = a + i
  · obtain ⟨i, hi, rfl⟩ := hx
    exact (h.write_eq (codec.fits_read mem a) rfl hi).symm
  · exact h.write_of_notMem _ mem fun i hi heq => hx ⟨i, hi, heq⟩

theorem movable : codec.Movable := fun hbytes =>
  h.read_eq_iff.mpr fun i hi => hbytes i (h.lt i hi)

end Bytewise

theorem scalar_inBytes (n : Nat) : (scalar n).InBytes (Set.Iio n) where
  lt _ hi := hi
  read_eq_iff {mem mem' a a'} := by
    constructor
    · intro h i hi
      refine ByteMemory.eq_of_load_eq ?_ i hi
      have hload (mem : ByteMemory) (a : Int) : mem.load a n = toLE n (ofLE (mem.load a n)) := by
        have hbytes := toLE_ofLE (mem.load a n)
        rw [ByteMemory.length_load] at hbytes
        exact hbytes.symm
      rw [hload mem', hload mem, Val.scalar.inj h]
    · exact fun h => congrArg (fun bytes => Val.scalar (ofLE bytes)) (ByteMemory.load_shift n h)
  write_of_notMem v mem a x h := by
    refine (scalar n).write_frame v mem ?_
    by_contra hx
    refine h (x - a).toNat ?_ ?_
    · show (x - a).toNat < n
      change ¬ (x < a ∨ a + (n : Int) ≤ x) at hx
      omega
    · omega

theorem zero_mem_scalar {n : Nat} (h : n ≠ 0) : 0 ∈ (scalar n).places := by
  rw [(scalar_inBytes n).places_eq]
  exact Nat.pos_of_ne_zero h

theorem none_inBytes : none.InBytes ∅ where
  lt _ hi := absurd hi (Set.notMem_empty _)
  read_eq_iff := ⟨fun _ _ hi => absurd hi (Set.notMem_empty _), fun _ => rfl⟩
  write_of_notMem _ _ _ _ _ := rfl

theorem writeParts_of_notMem {parts : List Part} {x a : Int}
    (h : ∀ part ∈ parts, part.codec.Bytewise ∧
      ∀ j ∈ part.codec.places, x ≠ a + part.offset + j) (vs : List Val) (mem : ByteMemory) :
    writeParts parts vs mem a x = mem x := by
  induction parts generalizing vs mem with
  | nil => rfl
  | cons part parts ih =>
    obtain ⟨⟨hpart, hx⟩, hparts⟩ := List.forall_mem_cons.mp h
    cases vs with
    | nil => rfl
    | cons v vs => rw [writeParts, ih hparts, hpart.write_of_notMem v mem hx]

/-- The bytes of a record are those of its parts. -/
theorem record_inBytes {parts : List Part} {size : Nat} (hapart : Apart parts)
    (hsize : ∀ part ∈ parts, part.stop ≤ size) (h : ∀ part ∈ parts, part.codec.Bytewise) :
    (record parts size hapart hsize).InBytes
      {i | ∃ part ∈ parts, ∃ j ∈ part.codec.places, i = part.offset + j} where
  lt := by
    rintro i ⟨part, hpart, j, hj, rfl⟩
    have hlt := (h part hpart).lt j hj
    have hstop := hsize part hpart
    rw [Part.stop] at hstop
    show part.offset + j < size
    omega
  read_eq_iff {mem mem' a a'} := by
    have hparts : (record parts size hapart hsize).read mem' a' =
        (record parts size hapart hsize).read mem a ↔ ∀ part ∈ parts,
          part.codec.read mem' (a' + part.offset) = part.codec.read mem (a + part.offset) :=
      Val.aggregate.injEq _ _ ▸ List.map_inj_left
    rw [hparts]
    constructor
    · rintro hread i ⟨part, hpart, j, hj, rfl⟩
      rw [Nat.cast_add, ← Int.add_assoc, ← Int.add_assoc]
      exact (h part hpart).read_eq_iff.mp (hread part hpart) j hj
    · intro hbytes part hpart
      refine (h part hpart).read_eq_iff.mpr fun j hj => ?_
      have hbyte := hbytes (part.offset + j) ⟨part, hpart, j, hj, rfl⟩
      rw [Nat.cast_add, ← Int.add_assoc, ← Int.add_assoc] at hbyte
      exact hbyte
  write_of_notMem v mem a x hx := by
    cases v with
    | scalar => rfl
    | unit => rfl
    | aggregate vs =>
      refine writeParts_of_notMem (fun part hpart => ⟨h part hpart, fun j hj heq => ?_⟩) vs mem
      refine hx (part.offset + j) ⟨part, hpart, j, hj, rfl⟩ ?_
      rw [Nat.cast_add, ← Int.add_assoc]
      exact heq

/-- Records that differ in one part are written the same outside its bytes. -/
theorem writeParts_eq_of_ne {parts : List Part} (hapart : Apart parts)
    (h : ∀ part ∈ parts, part.codec.Bytewise) {vs vs' : List Val}
    (hvs : List.Forall₂ (fun (part : Part) v => part.codec.fits v) parts vs)
    (hvs' : List.Forall₂ (fun (part : Part) v => part.codec.fits v) parts vs') {i : Nat}
    {part : Part} (hpart : parts[i]? = some part) (hsame : ∀ j, j ≠ i → vs[j]? = vs'[j]?)
    (mem : ByteMemory) {a x : Int} (hx : ∀ k ∈ part.codec.places, x ≠ a + part.offset + k) :
    writeParts parts vs mem a x = writeParts parts vs' mem a x := by
  by_cases hin : ∃ other ∈ parts, ∃ k ∈ other.codec.places, x = a + other.offset + k
  · obtain ⟨other, hother, k, hk, rfl⟩ := hin
    obtain ⟨j, hj⟩ := List.mem_iff_getElem?.mp hother
    have hne : j ≠ i := by
      rintro rfl
      rw [hpart, Option.some.injEq] at hj
      exact hx k (hj ▸ hk) (by rw [hj])
    have hread := hsame j hne
    conv at hread =>
      lhs
      rw [← readParts_writeParts hapart hvs mem a]
    conv at hread =>
      rhs
      rw [← readParts_writeParts hapart hvs' mem a]
    rw [readParts, readParts, List.getElem?_map, List.getElem?_map, hj, Option.map_some,
      Option.map_some, Option.some.injEq] at hread
    exact (h other hother).read_eq_iff.mp hread k hk
  · have hout : ∀ part ∈ parts, part.codec.Bytewise ∧
        ∀ j ∈ part.codec.places, x ≠ a + part.offset + j :=
      fun other hother => ⟨h other hother, fun k hk heq => hin ⟨other, hother, k, hk, heq⟩⟩
    rw [writeParts_of_notMem hout, writeParts_of_notMem hout]

/-! ## Places within places -/

section Shifted

variable {s t : Set Nat} {offset offset' : Nat}
  (hsub : ∀ i ∈ s, ∃ j ∈ t, offset + i = offset' + j)
include hsub

theorem image_subset_of_shifted : (offset + ·) '' s ⊆ (offset' + ·) '' t := by
  rintro _ ⟨i, hi, rfl⟩
  obtain ⟨j, hj, heq⟩ := hsub i hi
  exact ⟨j, hj, heq.symm⟩

variable (hfinite : t.Finite)
include hfinite

theorem ncard_le_of_shifted : s.ncard ≤ t.ncard := by
  have hle := Set.ncard_le_ncard (image_subset_of_shifted hsub) (hfinite.image _)
  rw [Set.ncard_image_of_injective _ (add_right_injective offset),
    Set.ncard_image_of_injective _ (add_right_injective offset')] at hle
  exact hle

/-- As many places lie within others, shifted, only where they are the same. -/
theorem eq_of_shifted (hcard : t.ncard ≤ s.ncard) (hs : 0 ∈ s) (ht : 0 ∈ t) :
    offset = offset' ∧ s = t := by
  have himage := image_subset_of_shifted hsub
  have heq : (offset + ·) '' s = (offset' + ·) '' t := by
    refine Set.eq_of_subset_of_ncard_le himage ?_ (hfinite.image _)
    rw [Set.ncard_image_of_injective _ (add_right_injective offset),
      Set.ncard_image_of_injective _ (add_right_injective offset')]
    exact hcard
  obtain ⟨i, -, hi⟩ : offset' ∈ (offset + ·) '' s := heq ▸ ⟨0, ht, rfl⟩
  obtain ⟨j, -, hj⟩ := himage ⟨0, hs, rfl⟩
  have hoffset : offset = offset' := by
    simp only at hi hj
    omega
  subst hoffset
  exact ⟨rfl, (add_right_injective offset).image_injective heq⟩

end Shifted

end MemoryCodec

end Crabbit.Lib
