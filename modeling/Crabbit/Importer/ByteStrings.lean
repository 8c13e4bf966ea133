/-
  Crabbit.Importer.ByteStrings

  Byte-string literals (`importer/strings.rs`): the automaton that reads their
  source text, whose answer the importer takes before the evaluated constant,
  beside the bytes the language gives them.

  The automaton takes the escapes of one character.  Of a hexadecimal escape it
  keeps the spelling, and a line continuation it keeps whole, so on such a
  literal it answers with too many bytes.
-/

import Crabbit.Lib.Text
import Mathlib.Tactic.Common

namespace Crabbit.Importer

open Crabbit.Lib (isAscii isWhiteSpace trim)

/-! ## The automaton -/

/-- The byte of a character. -/
def asciiByte (ch : Char) : UInt8 := UInt8.ofNat ch.toNat

/-- The byte pushed for a character after a backslash. -/
def escapedByte (ch : Char) : Option UInt8 :=
  match ch with
  | 'n' => some 10
  | 'r' => some 13
  | 't' => some 9
  | '0' => some 0
  | '\\' => some 92
  | '"' => some 34
  | '\'' => some 39
  | other => if isAscii other then some (asciiByte other) else none

/-- The loop over the characters behind the opening quote. -/
def scanByteString (escaped : Bool) (out : List UInt8) : List Char → Option (List UInt8)
  | [] => none
  | ch :: chars =>
    if escaped then (escapedByte ch).bind fun byte => scanByteString false (out ++ [byte]) chars
    else if ch = '\\' then scanByteString true out chars
    else if ch = '"' then some out
    else if isAscii ch then scanByteString false (out ++ [asciiByte ch]) chars
    else none

/-- `parse_rust_byte_string_literal` -/
def parseRustByteStringLiteral (input : List Char) : Option (List UInt8) :=
  match input with
  | 'b' :: '"' :: chars => scanByteString false [] chars
  | _ => none

/-- `literal_byte_string_constant`, from the text of the constant's span. -/
def literalByteStringConstant (snippet : Option (List Char)) : Option (List UInt8) :=
  snippet.bind fun text => parseRustByteStringLiteral (trim text)

/-- The bytes `import_constant` takes for a byte string. -/
def importedByteString (snippet : Option (List Char)) (evaluated : Option (List UInt8)) :
    Option (List UInt8) :=
  (literalByteStringConstant snippet).or evaluated

/-! ## The language -/

/-- The value of a hexadecimal digit. -/
def hexDigit (ch : Char) : Option Nat :=
  if '0' ≤ ch ∧ ch ≤ '9' then some (ch.toNat - '0'.toNat)
  else if 'a' ≤ ch ∧ ch ≤ 'f' then some (ch.toNat - 'a'.toNat + 10)
  else if 'A' ≤ ch ∧ ch ≤ 'F' then some (ch.toNat - 'A'.toNat + 10)
  else none

/-- The escapes of one character. -/
inductive SimpleEscape : Char → UInt8 → Prop where
  | newline : SimpleEscape 'n' 10
  | carriageReturn : SimpleEscape 'r' 13
  | tab : SimpleEscape 't' 9
  | null : SimpleEscape '0' 0
  | backslash : SimpleEscape '\\' 92
  | double : SimpleEscape '"' 34
  | single : SimpleEscape '\'' 39

/-- What a line continuation leaves out behind its newline. -/
def continuationSpace (ch : Char) : Bool := ch == ' ' || ch == '\n' || ch == '\t' || ch == '\r'

/-- The text behind the opening quote of a byte-string literal, and its bytes.
    A carriage return is no character of a literal. -/
inductive Denotes : List Char → List UInt8 → Prop where
  | close : Denotes ['"'] []
  | char {ch : Char} {rest : List Char} {bytes : List UInt8} (hascii : isAscii ch = true)
      (hplain : ch ≠ '"' ∧ ch ≠ '\\' ∧ ch ≠ '\r') (h : Denotes rest bytes) :
      Denotes (ch :: rest) (asciiByte ch :: bytes)
  | simple {ch : Char} {byte : UInt8} {rest : List Char} {bytes : List UInt8}
      (hescape : SimpleEscape ch byte) (h : Denotes rest bytes) :
      Denotes ('\\' :: ch :: rest) (byte :: bytes)
  | hex {hi lo : Char} {m n : Nat} {rest : List Char} {bytes : List UInt8}
      (hhi : hexDigit hi = some m) (hlo : hexDigit lo = some n) (h : Denotes rest bytes) :
      Denotes ('\\' :: 'x' :: hi :: lo :: rest) (UInt8.ofNat (16 * m + n) :: bytes)
  | continuation {spaces rest : List Char} {bytes : List UInt8}
      (hspaces : ∀ ch ∈ spaces, continuationSpace ch = true)
      (hrest : ∀ ch ∈ rest.head?, continuationSpace ch = false) (h : Denotes rest bytes) :
      Denotes ('\\' :: '\n' :: spaces ++ rest) bytes

/-- Every escape is one of one character. -/
def plainEscapes : List Char → Bool
  | '\\' :: ch :: rest => ch != 'x' && ch != '\n' && plainEscapes rest
  | _ :: rest => plainEscapes rest
  | [] => true

/-! ## Where they agree -/

theorem scan_char {ch : Char} (hascii : isAscii ch = true) (hquote : ch ≠ '"')
    (hslash : ch ≠ '\\') (out : List UInt8) (rest : List Char) :
    scanByteString false out (ch :: rest) = scanByteString false (out ++ [asciiByte ch]) rest := by
  rw [scanByteString, if_neg Bool.false_ne_true, if_neg hslash, if_neg hquote, if_pos hascii]

theorem scan_escape {ch : Char} {byte : UInt8} (h : escapedByte ch = some byte)
    (out : List UInt8) (rest : List Char) :
    scanByteString false out ('\\' :: ch :: rest) = scanByteString false (out ++ [byte]) rest := by
  rw [scanByteString, if_neg Bool.false_ne_true, if_pos rfl, scanByteString, if_pos rfl, h,
    Option.bind_some]

theorem escapedByte_simple {ch : Char} {byte : UInt8} (h : SimpleEscape ch byte) :
    escapedByte ch = some byte ∧ ch ≠ 'x' ∧ ch ≠ '\n' := by
  cases h <;> decide

theorem plainEscapes_char {ch : Char} (h : ch ≠ '\\') (rest : List Char) :
    plainEscapes (ch :: rest) = plainEscapes rest := by
  rw [plainEscapes.eq_def]
  split
  next heq =>
    rw [List.cons.injEq] at heq
    exact absurd heq.1 h
  next heq =>
    rw [List.cons.injEq] at heq
    rw [heq.2]
  next heq => cases heq

/-- A character between two others. -/
theorem toNat_le {a b : Char} (h : a ≤ b) : a.toNat ≤ b.toNat := h

/-- The automaton reads a hexadecimal digit as a character. -/
theorem hexDigit_char {ch : Char} {m : Nat} (h : hexDigit ch = some m) :
    isAscii ch = true ∧ ch ≠ '"' ∧ ch ≠ '\\' := by
  have hrange : ('0' ≤ ch ∧ ch ≤ '9') ∨ ('a' ≤ ch ∧ ch ≤ 'f') ∨ ('A' ≤ ch ∧ ch ≤ 'F') := by
    rw [hexDigit] at h
    split at h
    next hd => exact Or.inl hd
    next =>
      split at h
      next hd => exact Or.inr (Or.inl hd)
      next =>
        split at h
        next hd => exact Or.inr (Or.inr hd)
        next => cases h
  have hbounds : 48 ≤ ch.toNat ∧ ch.toNat < 128 ∧ ch.toNat ≠ 92 := by
    rcases hrange with ⟨hlo, hhi⟩ | ⟨hlo, hhi⟩ | ⟨hlo, hhi⟩
    · have := toNat_le hlo
      have := toNat_le hhi
      simp only [Char.reduceToNat] at *
      omega
    · have := toNat_le hlo
      have := toNat_le hhi
      simp only [Char.reduceToNat] at *
      omega
    · have := toNat_le hlo
      have := toNat_le hhi
      simp only [Char.reduceToNat] at *
      omega
  refine ⟨decide_eq_true hbounds.2.1, fun heq => ?_, fun heq => ?_⟩
  · rw [heq] at hbounds
    exact absurd hbounds.1 (by decide)
  · rw [heq] at hbounds
    exact absurd rfl hbounds.2.2

theorem continuationSpace_char {ch : Char} (h : continuationSpace ch = true) :
    isAscii ch = true ∧ ch ≠ '"' ∧ ch ≠ '\\' := by
  have hcases : ch = ' ' ∨ ch = '\n' ∨ ch = '\t' ∨ ch = '\r' := by
    simpa only [continuationSpace, Bool.or_eq_true, beq_iff_eq, or_assoc] using h
  rcases hcases with rfl | rfl | rfl | rfl <;> decide

/-- The automaton keeps the spaces of a continuation. -/
theorem scan_spaces {spaces : List Char} (h : ∀ ch ∈ spaces, continuationSpace ch = true)
    (out : List UInt8) (rest : List Char) :
    scanByteString false out (spaces ++ rest) =
      scanByteString false (out ++ spaces.map asciiByte) rest := by
  induction spaces generalizing out with
  | nil => rw [List.map_nil, List.append_nil, List.nil_append]
  | cons ch spaces ih =>
    obtain ⟨hch, hspaces⟩ := List.forall_mem_cons.mp h
    obtain ⟨hascii, hquote, hslash⟩ := continuationSpace_char hch
    rw [List.cons_append, scan_char hascii hquote hslash, ih hspaces, List.map_cons,
      List.append_assoc, List.singleton_append]

/-- What the automaton reads of a literal: its bytes where every escape is one of
    one character, and more bytes otherwise. -/
theorem Denotes.scan {text : List Char} {bytes : List UInt8} (h : Denotes text bytes) :
    ∃ read : List UInt8, (∀ out, scanByteString false out text = some (out ++ read)) ∧
      bytes.length ≤ read.length ∧ (plainEscapes text = true → read = bytes) ∧
      (plainEscapes text = false → bytes.length < read.length) := by
  induction h with
  | close =>
    refine ⟨[], fun out => ?_, Nat.le_refl _, fun _ => rfl, fun h => by cases h⟩
    rw [List.append_nil]
    rfl
  | @char ch rest bytes hascii hplain _ ih =>
    obtain ⟨read, hscan, hle, heq, hlt⟩ := ih
    refine ⟨asciiByte ch :: read, fun out => ?_, Nat.succ_le_succ hle, fun h => ?_, fun h => ?_⟩
    · rw [scan_char hascii hplain.1 hplain.2.1, hscan, List.append_assoc, List.singleton_append]
    · rw [plainEscapes_char hplain.2.1] at h
      rw [heq h]
    · rw [plainEscapes_char hplain.2.1] at h
      exact Nat.succ_lt_succ (hlt h)
  | @simple ch byte rest bytes hescape _ ih =>
    obtain ⟨read, hscan, hle, heq, hlt⟩ := ih
    obtain ⟨hbyte, hx, hn⟩ := escapedByte_simple hescape
    have hplain : plainEscapes ('\\' :: ch :: rest) = plainEscapes rest := by
      rw [plainEscapes, bne_iff_ne.mpr hx, bne_iff_ne.mpr hn, Bool.true_and, Bool.true_and]
    refine ⟨byte :: read, fun out => ?_, Nat.succ_le_succ hle, fun h => ?_, fun h => ?_⟩
    · rw [scan_escape hbyte, hscan, List.append_assoc, List.singleton_append]
    · rw [hplain] at h
      rw [heq h]
    · rw [hplain] at h
      exact Nat.succ_lt_succ (hlt h)
  | @hex hi lo m n rest bytes hhi hlo _ ih =>
    -- Three bytes for one.
    obtain ⟨read, hscan, hle, -, -⟩ := ih
    obtain ⟨hascii, hquote, hslash⟩ := hexDigit_char hhi
    obtain ⟨hascii', hquote', hslash'⟩ := hexDigit_char hlo
    have hlt : (UInt8.ofNat (16 * m + n) :: bytes).length <
        (asciiByte 'x' :: asciiByte hi :: asciiByte lo :: read).length := by
      simp only [List.length_cons]
      omega
    refine ⟨_, fun out => ?_, Nat.le_of_lt hlt, fun h => ?_, fun _ => hlt⟩
    · rw [@scan_escape 'x' (asciiByte 'x') rfl, scan_char hascii hquote hslash,
        scan_char hascii' hquote' hslash', hscan]
      simp only [List.append_assoc, List.cons_append, List.nil_append]
    · rw [plainEscapes] at h
      cases h
  | @continuation spaces rest bytes hspaces _ _ ih =>
    -- The newline and the spaces, for nothing.
    obtain ⟨read, hscan, hle, -, -⟩ := ih
    have hlt : bytes.length < (asciiByte '\n' :: (spaces.map asciiByte ++ read)).length := by
      rw [List.length_cons, List.length_append]
      omega
    refine ⟨_, fun out => ?_, Nat.le_of_lt hlt, fun h => ?_, fun _ => hlt⟩
    · rw [List.cons_append, List.cons_append, @scan_escape '\n' (asciiByte '\n') rfl,
        scan_spaces hspaces, hscan]
      simp only [List.append_assoc, List.cons_append, List.nil_append]
    · rw [List.cons_append, List.cons_append, plainEscapes] at h
      cases h

/-- A literal ends with its closing quote. -/
theorem Denotes.getLast {text : List Char} {bytes : List UInt8} (h : Denotes text bytes) :
    text.getLast? = some '"' := by
  induction h with
  | close => rfl
  | char _ _ _ ih => rw [List.getLast?_cons, ih]; rfl
  | simple _ _ ih => rw [List.getLast?_cons, List.getLast?_cons, ih]; rfl
  | hex _ _ _ ih =>
    rw [List.getLast?_cons, List.getLast?_cons, List.getLast?_cons, List.getLast?_cons, ih]
    rfl
  | continuation _ _ _ ih => rw [List.getLast?_append, ih]; rfl

theorem trim_literal {text : List Char} {bytes : List UInt8} (h : Denotes text bytes) :
    trim ('b' :: '"' :: text) = 'b' :: '"' :: text := by
  refine Crabbit.Lib.trimMatches_eq_self (fun c hc => ?_) (fun c hc => ?_)
  · obtain rfl := Option.some.inj hc
    rfl
  · rw [List.getLast?_cons, List.getLast?_cons, h.getLast] at hc
    obtain rfl := Option.some.inj hc
    rfl

/-- The importer takes the bytes of a literal, read from its text or evaluated,
    exactly where every escape is one of one character. -/
theorem importedByteString_exact_iff {text : List Char} {bytes : List UInt8}
    (h : Denotes text bytes) :
    ((∀ read, literalByteStringConstant (some ('b' :: '"' :: text)) = some read → read = bytes) ∧
      importedByteString (some ('b' :: '"' :: text)) (some bytes) = some bytes) ↔
      plainEscapes text = true := by
  obtain ⟨read, hscan, -, heq, hlt⟩ := h.scan
  have hread : literalByteStringConstant (some ('b' :: '"' :: text)) = some read := by
    rw [literalByteStringConstant, Option.bind_some, trim_literal h]
    exact hscan []
  have himported : importedByteString (some ('b' :: '"' :: text)) (some bytes) = some read := by
    rw [importedByteString, hread]
    rfl
  rw [himported]
  constructor
  · rintro ⟨hall, -⟩
    have := hall read hread
    by_contra hplain
    have := hlt ((Bool.not_eq_true _).mp hplain)
    subst read
    exact Nat.lt_irrefl _ this
  · intro hplain
    rw [heq hplain]
    refine ⟨fun read' hread' => ?_, rfl⟩
    rw [hread] at hread'
    exact (Option.some.inj hread').symm.trans (heq hplain)

/-- The literal of a newline and a zero byte, by escapes. -/
theorem importedByteString_newline_null :
    ((∀ read, literalByteStringConstant (some "b\"\\n\\0\"".toList) = some read → read = [10, 0]) ∧
      importedByteString (some "b\"\\n\\0\"".toList) (some [10, 0]) = some [10, 0]) ↔
      plainEscapes "\\n\\0\"".toList = true :=
  @importedByteString_exact_iff "\\n\\0\"".toList [10, 0] (.simple .newline (.simple .null .close))

/-- The literal of the byte 255 becomes its spelling. -/
theorem importedByteString_spelled :
    ¬ ∀ (text : List Char) (bytes : List UInt8), Denotes text bytes →
      (∀ read, literalByteStringConstant (some ('b' :: '"' :: text)) = some read → read = bytes) ∧
        importedByteString (some ('b' :: '"' :: text)) (some bytes) = some bytes := by
  intro h
  have hhex : Denotes ['\\', 'x', 'f', 'f', '"'] [255] := .hex (m := 15) (n := 15) rfl rfl .close
  have hread := (h _ _ hhex).1 [120, 102, 102] (by decide)
  exact absurd hread (by decide)

end Crabbit.Importer
