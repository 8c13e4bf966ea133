/-
  Crabbit.Lib.Record

  Binary records: little-endian fields of fixed widths, tables of such
  records, and tables of NUL-terminated strings.  Each is written by a plain
  concatenation and read back by offset.
-/

import Crabbit.Lib.Bytes
import Mathlib.Algebra.BigOperators.Group.List.Basic
import Mathlib.Data.List.Flatten

namespace Crabbit.Lib

/-! ## Fields -/

/-- Fields in order, each a width in bytes and a value. -/
def encodeFields (fields : List (Nat × Nat)) : List UInt8 :=
  fields.flatMap fun field => toLE field.1 field.2

/-- The values of fields of the given widths, if they make up all of `bytes`. -/
def decodeFields : List Nat → List UInt8 → Option (List Nat)
  | [], bytes => if bytes = [] then some [] else none
  | width :: widths, bytes => do
    let field ← sliceAt bytes 0 width
    let values ← decodeFields widths (bytes.drop width)
    return ofLE field :: values

theorem length_encodeFields (fields : List (Nat × Nat)) :
    (encodeFields fields).length = (fields.map Prod.fst).sum := by
  induction fields with
  | nil => rfl
  | cons field fields ih =>
    rw [encodeFields, List.flatMap_cons, ← encodeFields, List.length_append, length_toLE, ih,
      List.map_cons, List.sum_cons]

theorem decodeFields_encodeFields {fields : List (Nat × Nat)}
    (h : ∀ field ∈ fields, field.2 < 256 ^ field.1) :
    decodeFields (fields.map Prod.fst) (encodeFields fields) = some (fields.map Prod.snd) := by
  induction fields with
  | nil => rfl
  | cons field fields ih =>
    have hfirst : sliceAt (encodeFields (field :: fields)) 0 field.1
        = some (toLE field.1 field.2) := by
      rw [sliceAt_eq_some_iff]
      exact ⟨[], encodeFields fields, rfl, rfl, length_toLE _ _⟩
    have hrest : (encodeFields (field :: fields)).drop field.1 = encodeFields fields := by
      rw [encodeFields, List.flatMap_cons]
      exact List.drop_left' (length_toLE _ _)
    rw [List.map_cons, decodeFields, hfirst, hrest,
      ih fun f hf => h f (List.mem_cons_of_mem _ hf), List.map_cons]
    have hvalue := ofLE_toLE_of_lt (h field List.mem_cons_self)
    simp only [Option.bind_eq_bind, Option.bind_some, hvalue, Option.pure_def]

/-! ## Records -/

/-- A record format: the widths of its fields and the values that stand for a
    record. -/
structure Codec (α : Type) where
  widths : List Nat
  values : α → List Nat
  ofValues : List Nat → Option α
  length_values : ∀ x, (values x).length = widths.length
  ofValues_values : ∀ x, ofValues (values x) = some x

namespace Codec

variable {α : Type} (c : Codec α)

/-- The size of a record in bytes. -/
def size : Nat := c.widths.sum

def encode (x : α) : List UInt8 := encodeFields (c.widths.zip (c.values x))

def decode (bytes : List UInt8) : Option α :=
  (decodeFields c.widths bytes).bind c.ofValues

/-- Every value of the record is small enough for its field. -/
def Fits (x : α) : Prop := ∀ field ∈ c.widths.zip (c.values x), field.2 < 256 ^ field.1

theorem map_fst_zip (x : α) : (c.widths.zip (c.values x)).map Prod.fst = c.widths :=
  List.map_fst_zip (c.length_values x).ge

theorem map_snd_zip (x : α) : (c.widths.zip (c.values x)).map Prod.snd = c.values x :=
  List.map_snd_zip (c.length_values x).le

@[simp] theorem length_encode (x : α) : (c.encode x).length = c.size := by
  rw [encode, length_encodeFields, map_fst_zip, size]

theorem decode_encode {x : α} (h : c.Fits x) : c.decode (c.encode x) = some x := by
  have hfields := decodeFields_encodeFields h
  rw [map_fst_zip, map_snd_zip] at hfields
  rw [decode, encode, hfields]
  exact c.ofValues_values x

/-! ## Tables of records -/

def encodeTable (xs : List α) : List UInt8 := xs.flatMap c.encode

/-- The first `n` records of a table. -/
def readTable : Nat → List UInt8 → Option (List α)
  | 0, _ => some []
  | n + 1, bytes => do
    let x ← c.decode (bytes.take c.size)
    let xs ← readTable n (bytes.drop c.size)
    return x :: xs

theorem length_encodeTable (xs : List α) : (c.encodeTable xs).length = xs.length * c.size := by
  induction xs with
  | nil => rw [List.length_nil, Nat.zero_mul]; rfl
  | cons x xs ih =>
    rw [encodeTable, List.flatMap_cons, ← encodeTable, List.length_append, length_encode, ih,
      List.length_cons, Nat.succ_mul, Nat.add_comm]

theorem readTable_encodeTable {xs : List α} (h : ∀ x ∈ xs, c.Fits x) :
    c.readTable xs.length (c.encodeTable xs) = some xs := by
  induction xs with
  | nil => rfl
  | cons x xs ih =>
    have htable : c.encodeTable (x :: xs) = c.encode x ++ c.encodeTable xs := List.flatMap_cons
    rw [List.length_cons, readTable, htable, List.take_left' (c.length_encode x),
      List.drop_left' (c.length_encode x), c.decode_encode (h x List.mem_cons_self),
      ih fun y hy => h y (List.mem_cons_of_mem _ hy)]
    rfl

/-- The number of records of a table is known from its length. -/
theorem readTable_encodeTable_div {xs : List α} (hsize : 0 < c.size) (h : ∀ x ∈ xs, c.Fits x) :
    c.readTable ((c.encodeTable xs).length / c.size) (c.encodeTable xs) = some xs := by
  rw [length_encodeTable, Nat.mul_div_cancel _ hsize]
  exact c.readTable_encodeTable h

end Codec

/-! ## Tables of strings -/

/-- A table that begins with the empty string, and the strings behind it. -/
def stringTable (names : List (List UInt8)) : List UInt8 :=
  names.foldl (fun table name => table ++ name ++ [0]) [0]

/-- Where the strings of `names` begin behind `pos` bytes. -/
def stringOffsets : Nat → List (List UInt8) → List Nat
  | _, [] => []
  | pos, name :: names => pos :: stringOffsets (pos + name.length + 1) names

/-- The string at an offset, up to its NUL. -/
def stringAt (table : List UInt8) (off : Nat) : Option (List UInt8) :=
  let tail := table.drop off
  if 0 ∈ tail then some (tail.takeWhile (· != 0)) else none

@[simp] theorem length_stringOffsets (pos : Nat) (names : List (List UInt8)) :
    (stringOffsets pos names).length = names.length := by
  induction names generalizing pos with
  | nil => rfl
  | cons name names ih => rw [stringOffsets, List.length_cons, ih, List.length_cons]

theorem stringAt_of_eq {table name : List UInt8} (before after : List UInt8)
    (h : table = before ++ name ++ 0 :: after) (hname : 0 ∉ name) :
    stringAt table before.length = some name := by
  have htail : table.drop before.length = name ++ 0 :: after := by
    rw [h, List.append_assoc, List.drop_left]
  have hall : ∀ b ∈ name, (b != 0) = true := by
    intro b hb
    rw [bne_iff_ne]
    rintro rfl
    exact hname hb
  simp only [stringAt, htail]
  rw [if_pos (List.mem_append_right _ List.mem_cons_self), List.takeWhile_append_of_pos hall,
    List.takeWhile_cons_of_neg (by simp), List.append_nil]

theorem foldl_strings_eq (names : List (List UInt8)) (table : List UInt8) :
    names.foldl (fun table name => table ++ name ++ [0]) table
      = table ++ names.flatMap (· ++ [0]) := by
  induction names generalizing table with
  | nil => exact (List.append_nil _).symm
  | cons name names ih => rw [List.foldl_cons, ih, List.flatMap_cons]; simp only [List.append_assoc]

/-- A string is found at its offset, whatever the table holds around it. -/
theorem stringAt_foldl {names : List (List UInt8)} (h : ∀ name ∈ names, 0 ∉ name)
    (table : List UInt8) {i : Nat} {off : Nat} {name : List UInt8}
    (hoff : (stringOffsets table.length names)[i]? = some off) (hname : names[i]? = some name) :
    stringAt (names.foldl (fun table name => table ++ name ++ [0]) table) off = some name := by
  induction names generalizing table i with
  | nil => cases hname
  | cons first names ih =>
    cases i with
    | zero =>
      cases hoff
      cases hname
      apply stringAt_of_eq table (names.flatMap (· ++ [0])) _ (h _ List.mem_cons_self)
      rw [foldl_strings_eq, List.flatMap_cons]
      simp only [List.append_assoc, List.cons_append, List.nil_append]
    | succ i =>
      apply ih (fun n hn => h n (List.mem_cons_of_mem _ hn)) (i := i) (table ++ first ++ [0])
      · simpa only [List.length_append, List.length_singleton, stringOffsets,
          List.getElem?_cons_succ] using hoff
      · exact hname

theorem stringAt_stringTable {names : List (List UInt8)} (h : ∀ name ∈ names, 0 ∉ name)
    {i off : Nat} {name : List UInt8} (hoff : (stringOffsets 1 names)[i]? = some off)
    (hname : names[i]? = some name) : stringAt (stringTable names) off = some name :=
  stringAt_foldl h [0] hoff hname

/-- The table begins with the empty string. -/
theorem stringAt_stringTable_zero (names : List (List UInt8)) :
    stringAt (stringTable names) 0 = some [] := by
  apply stringAt_of_eq [] (names.flatMap (· ++ [0])) _ List.not_mem_nil
  rw [stringTable, foldl_strings_eq]
  rfl

theorem stringOffsets_le (pos : Nat) (names : List (List UInt8)) :
    ∀ off ∈ stringOffsets pos names, off ≤ pos + (names.flatMap (· ++ [0])).length := by
  induction names generalizing pos with
  | nil => exact fun off h => absurd h List.not_mem_nil
  | cons name names ih =>
    intro off h
    rw [List.flatMap_cons, List.length_append, List.length_append, List.length_singleton]
    rcases List.mem_cons.mp h with rfl | h
    · omega
    · have hle := ih _ off h
      omega

/-- Every offset lies in the table. -/
theorem stringOffsets_le_length {names : List (List UInt8)} :
    ∀ off ∈ stringOffsets 1 names, off ≤ (stringTable names).length := by
  intro off h
  rw [stringTable, foldl_strings_eq, List.length_append]
  exact stringOffsets_le 1 names off h

/-- Each string takes a byte of the table at least. -/
theorem length_lt_length_stringTable (names : List (List UInt8)) :
    names.length < (stringTable names).length := by
  rw [stringTable, foldl_strings_eq, List.length_append, List.length_singleton]
  induction names with
  | nil => exact Nat.one_pos
  | cons name names ih =>
    rw [List.flatMap_cons, List.length_append, List.length_append, List.length_singleton,
      List.length_cons]
    omega

/-- Fewer strings make a shorter table. -/
theorem length_stringTable_le {names names' : List (List UInt8)} (h : names.Sublist names') :
    (stringTable names).length ≤ (stringTable names').length := by
  have hle := (h.flatMap (· ++ [0])).length_le
  rw [stringTable, foldl_strings_eq, stringTable, foldl_strings_eq, List.length_append,
    List.length_append]
  omega

/-! ## Lists of readings -/

section Readings

variable {α β γ ι : Type}

/-- Readings that all succeed are a map. -/
theorem mapM_map_eq_some {f : α → Option β} {g : ι → α} {h : ι → β} {xs : List ι}
    (hf : ∀ x ∈ xs, f (g x) = some (h x)) : (xs.map g).mapM f = some (xs.map h) := by
  induction xs with
  | nil => rfl
  | cons x xs ih =>
    rw [List.map_cons, List.mapM_cons, hf x List.mem_cons_self,
      ih fun y hy => hf y (List.mem_cons_of_mem _ hy)]
    rfl

/-- The same for records that were put together from two lists. -/
theorem mapM_zipWith_eq_some {f : γ → Option β} {g : α → ι → γ} {h : α → β} {xs : List α}
    {ys : List ι} (hlen : ys.length = xs.length)
    (hf : ∀ (i : Nat) x y, xs[i]? = some x → ys[i]? = some y → f (g x y) = some (h x)) :
    (List.zipWith g xs ys).mapM f = some (xs.map h) := by
  induction xs generalizing ys with
  | nil => rfl
  | cons x xs ih =>
    cases ys with
    | nil => cases hlen
    | cons y ys =>
      rw [List.zipWith_cons_cons, List.mapM_cons, hf 0 x y rfl rfl,
        ih (Nat.succ.inj hlen) fun i x' y' hx hy => hf (i + 1) x' y' hx hy]
      rfl

/-- A mapped list holds an element's image at the element's index. -/
theorem getElem?_map_idxOf [DecidableEq α] {x : α} {xs : List α} (h : x ∈ xs) (f : α → β) :
    (xs.map f)[xs.idxOf x]? = some (f x) := by
  have hlt := List.idxOf_lt_length_of_mem h
  rw [List.getElem?_map, List.getElem?_eq_getElem hlt, List.getElem_idxOf hlt]
  rfl

end Readings

end Crabbit.Lib
