/-
  Crabbit.Aarch64.RegisterText

  How registers are written in the instruction dialect, and read again
  (`Display` and `Register::parse` of `aarch64/registers.rs`).  A virtual
  register is spelled with the letter of its class, but only four classes have
  one; every other virtual register is written as a general-purpose one.
-/

import Crabbit.Aarch64.Registers

namespace Crabbit.Aarch64

/-! ## Numbers -/

/-- The digits behind an optional plus sign. -/
def unsignedDigits : List Char → List Char
  | '+' :: digits => digits
  | digits => digits

/-- `number.parse()` for an unsigned type: digits only, at least one, and no
    more than `limit`. -/
def parseUnsigned (limit : Nat) (text : List Char) : Option Nat :=
  if unsignedDigits text ≠ [] ∧ (unsignedDigits text).all Char.isDigit = true ∧
      Nat.ofDigitChars 10 (unsignedDigits text) 0 ≤ limit then
    some (Nat.ofDigitChars 10 (unsignedDigits text) 0)
  else none

abbrev U8_MAX : Nat := 255

abbrev U32_MAX : Nat := 4294967295

/-! ## Registers -/

namespace Register

/-- `Display` -/
def display : Register → List Char
  | .virtual id .fpr64 => 'v' :: 'd' :: Nat.toDigits 10 id
  | .virtual id .fpr32 => 'v' :: 's' :: Nat.toDigits 10 id
  | .virtual id .simd128 => 'v' :: 'q' :: Nat.toDigits 10 id
  -- Every other class is written like the 64-bit general-purpose one.
  | .virtual id _ => 'v' :: 'r' :: Nat.toDigits 10 id
  | .physical (.gpr64 number) => 'x' :: Nat.toDigits 10 number
  | .physical (.gpr32 number) => 'w' :: Nat.toDigits 10 number
  | .physical (.fpr64 number) => 'd' :: Nat.toDigits 10 number
  | .physical (.fpr32 number) => 's' :: Nat.toDigits 10 number
  | .physical (.simd128 number) => 'q' :: Nat.toDigits 10 number
  | .physical .sp => ['s', 'p']
  | .physical .nzcv => ['n', 'z', 'c', 'v']

/-- `strip_prefix` -/
def stripPrefix : List Char → List Char → Option (List Char)
  | [], text => some text
  | _ :: _, [] => none
  | c :: start, d :: text => if c = d then stripPrefix start text else none

/-- The prefixes of virtual registers, in the order they are tried. -/
def virtualPrefixes : List (List Char × RegisterClass) :=
  [(['v', 'r'], .gpr64), (['v', 'q'], .simd128), (['v', 'd'], .fpr64), (['v', 's'], .fpr32)]

/-- The first prefix the text has, and the text behind it. -/
def virtualNumber (text : List Char) : Option (RegisterClass × List Char) :=
  virtualPrefixes.findSome? fun spelling =>
    (stripPrefix spelling.1 text).map fun number => (spelling.2, number)

/-- `parse_number` -/
def parseNumber (text : List Char) (letter : Char) : Option Nat :=
  ((stripPrefix [letter] text).bind (parseUnsigned U8_MAX)).filter (· ≤ 31)

/-- The letters of physical registers, in the order they are tried. -/
def physicalLetters : List (Char × (Nat → PhysicalRegister)) :=
  [('x', .gpr64), ('w', .gpr32), ('d', .fpr64), ('s', .fpr32), ('v', .simd128), ('q', .simd128)]

/-- `Register::parse` -/
def parse (text : List Char) : Option Register :=
  -- `v` alone is a vector register, so the two-letter prefixes come first.
  match virtualNumber text with
  | some (cls, number) => (parseUnsigned U32_MAX number).map fun id => .virtual id cls
  | none =>
    if text = ['s', 'p'] then some (.physical .sp)
    else if text = ['n', 'z', 'c', 'v'] then some (.physical .nzcv)
    else physicalLetters.findSome? fun spelling =>
      (parseNumber text spelling.1).map fun number => .physical (spelling.2 number)

/-! ## What is read back -/

/-- Numbers as wide as the file, and a class with a letter of its own. -/
def Spelled : Register → Prop
  | .virtual id cls => id ≤ U32_MAX ∧ cls ∈ virtualPrefixes.map Prod.snd
  | .physical (.gpr64 number) | .physical (.gpr32 number) | .physical (.fpr64 number)
  | .physical (.fpr32 number) | .physical (.simd128 number) => number ≤ 31
  | .physical .sp | .physical .nzcv => True

end Register

theorem isDigit_of_mem_toDigits {n : Nat} {ch : Char} (h : ch ∈ Nat.toDigits 10 n) :
    ch.isDigit = true :=
  Nat.isDigit_of_mem_toDigits (by decide) (by decide) h

theorem unsignedDigits_toDigits (n : Nat) :
    unsignedDigits (Nat.toDigits 10 n) = Nat.toDigits 10 n := by
  unfold unsignedDigits
  split
  · next digits heq =>
    have hplus := @isDigit_of_mem_toDigits n '+' (by rw [heq]; exact List.mem_cons_self)
    exact absurd hplus (by decide)
  · rfl

/-- A number is read back if it is in range. -/
theorem parseUnsigned_toDigits (limit n : Nat) :
    parseUnsigned limit (Nat.toDigits 10 n) = if n ≤ limit then some n else none := by
  have hall : (Nat.toDigits 10 n).all Char.isDigit = true :=
    List.all_eq_true.mpr fun ch h => isDigit_of_mem_toDigits h
  rw [parseUnsigned, unsignedDigits_toDigits, hall, Nat.ofDigitChars_ten_toDigits]
  simp only [ne_eq, Nat.toDigits_ne_nil, not_false_eq_true, true_and]

theorem le_of_parseUnsigned {limit n : Nat} {text : List Char}
    (h : parseUnsigned limit text = some n) : n ≤ limit := by
  unfold parseUnsigned at h
  split at h
  · next hdigits =>
    rw [← Option.some.inj h]
    exact hdigits.2.2
  · cases h

namespace Register

/-- The class a virtual register is read back with. -/
def readClass : RegisterClass → RegisterClass
  | .fpr64 => .fpr64
  | .fpr32 => .fpr32
  | .simd128 => .simd128
  | _ => .gpr64

theorem mem_virtualPrefixes (cls : RegisterClass) :
    cls ∈ virtualPrefixes.map Prod.snd ↔ readClass cls = cls := by
  cases cls <;> decide

theorem parse_display_virtual (id : Nat) (cls : RegisterClass) :
    parse (display (.virtual id cls)) =
      if id ≤ U32_MAX then some (.virtual id (readClass cls)) else none := by
  have hnumber : virtualNumber (display (.virtual id cls)) =
      some (readClass cls, Nat.toDigits 10 id) := by
    cases cls <;> rfl
  unfold parse
  rw [hnumber]
  dsimp only
  rw [parseUnsigned_toDigits]
  split <;> rfl

theorem parseNumber_cons (c letter : Char) (n : Nat) :
    parseNumber (c :: Nat.toDigits 10 n) letter =
      if letter = c ∧ n ≤ 31 then some n else none := by
  rw [parseNumber, stripPrefix, stripPrefix]
  by_cases hletter : letter = c
  · rw [if_pos hletter, Option.bind_some, parseUnsigned_toDigits]
    by_cases hn : n ≤ 31
    · have hmax : n ≤ U8_MAX := Nat.le_trans hn (by decide)
      simp [hmax, hn, hletter]
    · -- A `u8` that is no register number is refused after it was read.
      have hlarge : ¬(letter = c ∧ n ≤ 31) := fun h => hn h.2
      rw [if_neg hlarge]
      split
      · simp [Nat.lt_of_not_le hn]
      · rfl
  · rw [if_neg hletter, if_neg fun h => hletter h.1]
    rfl

/-- Behind the letter of a file stand digits, so the text is no name. -/
theorem parse_cons_toDigits {c : Char} (hc : c ≠ 'v') (n : Nat) :
    parse (c :: Nat.toDigits 10 n) = physicalLetters.findSome? fun spelling =>
      if spelling.1 = c ∧ n ≤ 31 then some (.physical (spelling.2 n)) else none := by
  have hvirtual : virtualNumber (c :: Nat.toDigits 10 n) = none := by
    simp [virtualNumber, virtualPrefixes, stripPrefix, Ne.symm hc]
  have hname : ∀ (first : Char) (name : List Char), (∀ ch ∈ name.head?, ch.isDigit = false) →
      name ≠ [] → c :: Nat.toDigits 10 n ≠ first :: name := by
    rintro first name hhead hne heq
    -- Then the name's second letter is the number's first digit.
    obtain ⟨-, heq⟩ := List.cons.inj heq
    obtain ⟨ch, rest, rfl⟩ := List.exists_cons_of_ne_nil hne
    have hdigit := @isDigit_of_mem_toDigits n ch (by rw [heq]; exact List.mem_cons_self)
    rw [hhead ch rfl] at hdigit
    cases hdigit
  unfold parse
  rw [hvirtual]
  dsimp only
  rw [if_neg (hname 's' ['p'] (by simp) (by simp)),
    if_neg (hname 'n' ['z', 'c', 'v'] (by simp) (by simp))]
  refine congrArg (physicalLetters.findSome? ·) (funext fun spelling => ?_)
  rw [parseNumber_cons]
  split <;> rfl

/-- A register is read back exactly when it has a spelling of its own. -/
theorem parse_display_iff (reg : Register) : parse reg.display = some reg ↔ reg.Spelled := by
  cases reg with
  | «virtual» id cls =>
    rw [parse_display_virtual, Spelled, mem_virtualPrefixes]
    by_cases hid : id ≤ U32_MAX
    · simp [hid]
    · simp [hid]
  | physical reg =>
    cases reg with
    | sp => exact iff_of_true rfl trivial
    | nzcv => exact iff_of_true rfl trivial
    | gpr64 n =>
      rw [display, parse_cons_toDigits (by decide), Spelled]
      by_cases hn : n ≤ 31 <;> simp [physicalLetters, hn]
    | gpr32 n =>
      rw [display, parse_cons_toDigits (by decide), Spelled]
      by_cases hn : n ≤ 31 <;> simp [physicalLetters, hn]
    | fpr64 n =>
      rw [display, parse_cons_toDigits (by decide), Spelled]
      by_cases hn : n ≤ 31 <;> simp [physicalLetters, hn]
    | fpr32 n =>
      rw [display, parse_cons_toDigits (by decide), Spelled]
      by_cases hn : n ≤ 31 <;> simp [physicalLetters, hn]
    | simd128 n =>
      rw [display, parse_cons_toDigits (by decide), Spelled]
      by_cases hn : n ≤ 31 <;> simp [physicalLetters, hn]

/-- Only registers with a spelling are read, from whatever text. -/
theorem spelled_of_parse {text : List Char} {reg : Register} (h : parse text = some reg) :
    reg.Spelled := by
  unfold parse at h
  split at h
  · next cls number hnumber =>
    obtain ⟨id, hid, rfl⟩ := Option.map_eq_some_iff.mp h
    obtain ⟨spelling, hmem, hfound⟩ := List.exists_of_findSome?_eq_some hnumber
    obtain ⟨rest, -, hrest⟩ := Option.map_eq_some_iff.mp hfound
    refine ⟨le_of_parseUnsigned hid, List.mem_map.mpr ⟨spelling, hmem, ?_⟩⟩
    exact congrArg Prod.fst hrest
  · split at h
    · rw [← Option.some.inj h]
      trivial
    · split at h
      · rw [← Option.some.inj h]
        trivial
      · obtain ⟨spelling, hmem, hfound⟩ := List.exists_of_findSome?_eq_some h
        obtain ⟨n, hn, rfl⟩ := Option.map_eq_some_iff.mp hfound
        -- Whichever the letter was, the number has passed the filter.
        have hle : n ≤ 31 := of_decide_eq_true (Option.filter_eq_some_iff.mp hn).2
        simp only [physicalLetters, List.mem_cons, List.not_mem_nil, or_false] at hmem
        rcases hmem with rfl | rfl | rfl | rfl | rfl | rfl <;> exact hle

/-- A register is read back from its text exactly when it has a spelling of its
    own, and every register that was read is: its text is canonical. -/
theorem parse_display_exact :
    (∀ reg : Register, parse reg.display = some reg ↔ reg.Spelled) ∧
      ∀ (text : List Char) (reg : Register), parse text = some reg →
        parse reg.display = some reg := by
  refine ⟨parse_display_iff, fun text reg h => ?_⟩
  have hspelled : reg.Spelled := spelled_of_parse h
  exact (parse_display_iff reg).mpr hspelled

end Register

end Crabbit.Aarch64
