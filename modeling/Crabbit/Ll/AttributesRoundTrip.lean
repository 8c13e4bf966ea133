/-
  Crabbit.Ll.AttributesRoundTrip

  What is read back of a printed payload attribute.  Bytes always are.  Of the
  relocations the magnitude of an addend is read as a signed integer before its
  sign is put back, so that the least addend is out of range, and a symbol has
  at least one character.
-/

import Crabbit.Ll.Attributes

namespace Crabbit.Ll

open Crabbit.Lib

/-! ## Digits -/

theorem printHexDigit_reads : ∀ n < 16, toDigit16 (printHexDigit n) = some n ∧
    printHexDigit n ≠ '+' ∧ (printHexDigit n).isAlphanum = true := by decide

theorem fromStrRadix16_printByte (byte : UInt8) :
    fromStrRadix16 (printHexDigit (byte.toNat / 16)) (printHexDigit (byte.toNat % 16)) =
      some byte := by
  have hbyte := byte.toNat_lt
  obtain ⟨hhigh, hplus, -⟩ := printHexDigit_reads (byte.toNat / 16) (by omega)
  obtain ⟨hlow, -, -⟩ := printHexDigit_reads (byte.toNat % 16) (Nat.mod_lt _ (by decide))
  rw [fromStrRadix16, if_neg hplus, hhigh, hlow]
  show some (UInt8.ofNat (16 * (byte.toNat / 16) + byte.toNat % 16)) = some byte
  rw [Nat.div_add_mod, UInt8.ofNat_toNat]

theorem parsePairs_printed (bytes : List UInt8) :
    parsePairs (bytes.flatMap printByte) = some bytes := by
  induction bytes with
  | nil => rfl
  | cons byte bytes ih =>
    rw [List.flatMap_cons, printByte]
    show (fromStrRadix16 _ _).bind _ = _
    rw [fromStrRadix16_printByte]
    show (parsePairs (bytes.flatMap printByte)).map (byte :: ·) = _
    rw [ih, Option.map_some]

theorem length_printed (bytes : List UInt8) :
    (bytes.flatMap printByte).length = 2 * bytes.length := by
  induction bytes with
  | nil => rfl
  | cons byte bytes ih =>
    rw [List.flatMap_cons, List.length_append, ih, List.length_cons, printByte]
    simp only [List.length_cons, List.length_nil]
    omega

theorem BytesAttr.display_eq (attr : BytesAttr) :
    attr.display = '0' :: 'x' :: attr.bytes.flatMap printByte := rfl

theorem BytesAttr.parseStr_display (attr : BytesAttr) :
    BytesAttr.parseStr attr.display = some attr := by
  have heven : ¬ (attr.bytes.flatMap printByte).length % 2 ≠ 0 := by
    rw [length_printed]
    omega
  rw [BytesAttr.display_eq, BytesAttr.parseStr, if_neg heven, parsePairs_printed]
  rfl

theorem BytesAttr.isAlphanum_display (attr : BytesAttr) : ∀ ch ∈ attr.display,
    ch.isAlphanum = true := by
  intro ch hch
  rcases List.mem_append.mp hch with hch | hch
  · rcases List.mem_pair.mp hch with rfl | rfl <;> rfl
  · obtain ⟨byte, -, hch⟩ := List.mem_flatMap.mp hch
    have hbyte := byte.toNat_lt
    rcases List.mem_pair.mp hch with rfl | rfl
    · exact (printHexDigit_reads _ (by omega)).2.2
    · exact (printHexDigit_reads _ (Nat.mod_lt _ (by decide))).2.2

/-- `i64`'s magnitude, as it is printed. -/
def magnitude (n : Int64) : Nat := n.toInt.natAbs

theorem magnitude_le_iff (n : Int64) : magnitude n ≤ 2 ^ 63 - 1 ↔ n ≠ Int64.minValue := by
  have hlow := n.le_toInt
  have hhigh := n.toInt_lt
  rw [Ne, ← Int64.toInt_inj, Int64.toInt_minValue, magnitude]
  omega

/-- The sign put back. -/
theorem addendOf_magnitude (n : Int64) (h : n ≠ Int64.minValue) :
    addendOf (if n.toInt < 0 then some '-' else none, magnitude n) = n := by
  have hmag := (magnitude_le_iff n).mpr h
  rw [← Int64.toInt_inj]
  by_cases hneg : n.toInt < 0
  · rw [if_pos hneg]
    show (-Int64.ofNat (magnitude n)).toInt = n.toInt
    rw [Int64.toInt_neg_ofNat_of_le (by omega), magnitude]
    omega
  · rw [if_neg hneg]
    show (Int64.ofNat (magnitude n)).toInt = n.toInt
    rw [Int64.toInt_ofNat_of_lt (by omega), magnitude]
    omega

/-! ## Characters that stop a run -/

theorem stops_cons {p : Char → Bool} {ch : Char} {rest : List Char} (h : p ch = false) :
    Stops p (ch :: rest) := by
  rintro _ ⟨⟩
  exact h

theorem stops_nil (p : Char → Bool) : Stops p [] := by
  rintro _ ⟨⟩

theorem isDigit_toDigits (n : Nat) : ∀ ch ∈ Nat.toDigits 10 n, ch.isDigit = true :=
  fun _ h => Nat.isDigit_of_mem_toDigits (by decide) (by decide) h

/-- Neither a space nor a sign starts a number. -/
theorem stops_toDigits {p : Char → Bool} (hp : ∀ ch, ch.isDigit = true → p ch = false) (n : Nat)
    (rest : List Char) : Stops p (Nat.toDigits 10 n ++ rest) := by
  cases hdigits : Nat.toDigits 10 n with
  | nil => exact absurd hdigits Nat.toDigits_ne_nil
  | cons ch digits =>
    refine stops_cons (hp ch (isDigit_toDigits n ch ?_))
    rw [hdigits]
    exact List.mem_cons_self

theorem not_maybeSpace_of_isDigit (ch : Char) (h : ch.isDigit = true) : maybeSpace ch = false := by
  rw [Char.isDigit, Bool.and_eq_true, decide_eq_true_eq, decide_eq_true_eq] at h
  have hlow : 48 ≤ ch.toNat := h.1
  have hhigh : ch.toNat ≤ 57 := h.2
  rw [maybeSpace, decide_eq_false (by omega), decide_eq_false (by omega)]
  rfl

theorem ne_of_isDigit {other : Char} (h : other.isDigit = false) (ch : Char)
    (hch : ch.isDigit = true) : (ch == other) = false := by
  refine beq_eq_false_iff_ne.mpr fun heq => ?_
  rw [heq, h] at hch
  exact Bool.false_ne_true hch

/-! ## Relocations -/

/-- What is read back of a relocation: a symbol that is there, and an addend
    whose magnitude is in range. -/
def DataReloc.Readable (reloc : DataReloc) : Prop :=
  reloc.symbol ≠ [] ∧ reloc.addend ≠ Int64.minValue

/-- The characters a symbol is spelled with. -/
def DataReloc.Spelled (reloc : DataReloc) : Prop :=
  ∀ ch ∈ reloc.symbol, isSymbolChar ch = true

instance (reloc : DataReloc) : Decidable reloc.Spelled :=
  List.decidableBAll (fun ch => isSymbolChar ch = true) reloc.symbol

theorem DataReloc.display_append (reloc : DataReloc) (rest : List Char) :
    reloc.display ++ rest = displayU64 reloc.offset ++
      ':' :: (reloc.symbol ++ ':' :: (displayI64 reloc.addend ++ rest)) := by
  simp only [DataReloc.display, List.append_assoc, List.cons_append]

theorem stops_display (reloc : DataReloc) (rest : List Char) :
    Stops maybeSpace (reloc.display ++ rest) := by
  rw [reloc.display_append]
  exact stops_toDigits not_maybeSpace_of_isDigit _ _

/-- The relocations behind the first, and the bracket. -/
def tailText (relocs : List DataReloc) (rest : List Char) : List Char :=
  (relocs.flatMap fun next => ", ".toList ++ next.display) ++ ']' :: rest

theorem tailText_cons (reloc : DataReloc) (relocs : List DataReloc) (rest : List Char) :
    tailText (reloc :: relocs) rest = ',' :: ' ' :: (reloc.display ++ tailText relocs rest) := by
  simp only [tailText, List.flatMap_cons, List.append_assoc]
  rfl

/-- Neither a number nor a space goes on there. -/
theorem stops_tailText {p : Char → Bool} (hcomma : p ',' = false) (hbracket : p ']' = false)
    (relocs : List DataReloc) (rest : List Char) : Stops p (tailText relocs rest) := by
  cases relocs with
  | nil => exact stops_cons hbracket
  | cons reloc relocs =>
    rw [tailText_cons]
    exact stops_cons hcomma

theorem length_tailText_lt (reloc : DataReloc) (relocs : List DataReloc) (rest : List Char) :
    (tailText relocs rest).length < (tailText (reloc :: relocs) rest).length := by
  rw [tailText_cons, List.length_cons, List.length_cons, List.length_append]
  omega

theorem displayRelocs_cons (reloc : DataReloc) (relocs : List DataReloc) (rest : List Char) :
    displayRelocs (reloc :: relocs) ++ ']' :: rest = reloc.display ++ tailText relocs rest :=
  List.append_assoc _ _ _

theorem stops_displayRelocs (relocs : List DataReloc) (rest : List Char) :
    Stops maybeSpace (displayRelocs relocs ++ ']' :: rest) := by
  cases relocs with
  | nil => exact stops_cons rfl
  | cons reloc relocs =>
    rw [displayRelocs_cons]
    exact stops_display reloc _

section Reading

variable {c : Combinators} (hc : c.Documented)
include hc

theorem u64Parser_display (n : UInt64) {rest : List Char} (hrest : Stops maybeInt rest) :
    u64Parser c (displayU64 n ++ rest) = .commitOk n.toNat rest := by
  have hle : Nat.ofDigitChars 10 (Nat.toDigits 10 n.toNat) 0 ≤ 2 ^ 64 - 1 := by
    rw [Nat.ofDigitChars_ten_toDigits]
    have hn := n.toNat_lt
    omega
  rw [u64Parser, displayU64, hc.intParser _ _ _ Nat.toDigits_ne_nil (isDigit_toDigits _) hrest hle,
    Nat.ofDigitChars_ten_toDigits]

theorem symbolParser_ok {symbol rest : List Char} (hne : symbol ≠ [])
    (hsymbol : ∀ ch ∈ symbol, isSymbolChar ch = true) (hrest : Stops isSymbolChar rest) :
    symbolParser c (':' :: (symbol ++ rest)) = .commitOk symbol rest := by
  rw [symbolParser, hc.seqWith_ok (hc.token_ok _ _),
    hc.many1 _ _ _ hne hsymbol hrest]
  rfl

theorem symbolParser_err {rest : List Char} (hrest : Stops isSymbolChar rest) :
    ∃ e, symbolParser c (':' :: rest) = .commitErr e := by
  obtain ⟨e, he⟩ := hc.many1_err isSymbolChar rest hrest
  refine ⟨e, ?_⟩
  rw [symbolParser, hc.seqWith_ok (hc.token_ok _ _), he]
  rfl

/-- The sign of what is printed is taken by itself. -/
theorem optional_sign (n : Int64) (rest : List Char) :
    ∃ commits : Bool, c.optional (c.token '-') (displayI64 n ++ rest) =
      if commits then
        .commitOk (if n.toInt < 0 then some '-' else none) (Nat.toDigits 10 (magnitude n) ++ rest)
      else
        .peekOk (if n.toInt < 0 then some '-' else none)
          (Nat.toDigits 10 (magnitude n) ++ rest) := by
  rw [displayI64]
  by_cases hneg : n.toInt < 0
  · rw [if_pos hneg, if_pos hneg, List.cons_append]
    exact ⟨true, hc.optional_some _ _ _ _ (hc.token_ok _ _)⟩
  · rw [if_neg hneg, if_neg hneg]
    have hdigit : ∀ ch : Char, ch.isDigit = true → (ch == '-') = false := ne_of_isDigit rfl
    obtain ⟨e, he⟩ := hc.token_err (stops_toDigits hdigit n.toInt.natAbs rest)
    exact ⟨false, hc.optional_none _ _ _ he⟩

theorem addendParser_eq (n : Int64) (rest : List Char) :
    addendParser c (':' :: (displayI64 n ++ rest)) =
      ((i64Parser c (Nat.toDigits 10 (magnitude n) ++ rest)).map fun m =>
        (if n.toInt < 0 then some '-' else none, m)).commit := by
  obtain ⟨commits, hsign⟩ := optional_sign hc n rest
  rw [addendParser, hc.seqWith_ok (hc.token_ok _ _), hc.seqAnd, hsign]
  cases commits with
  | true => exact Reply.commit_commit _
  | false => rfl

theorem addendParser_ok {n : Int64} (hn : n ≠ Int64.minValue) {rest : List Char}
    (hrest : Stops maybeInt rest) : addendParser c (':' :: (displayI64 n ++ rest)) =
      .commitOk (if n.toInt < 0 then some '-' else none, magnitude n) rest := by
  have hle : Nat.ofDigitChars 10 (Nat.toDigits 10 (magnitude n)) 0 ≤ 2 ^ 63 - 1 := by
    rw [Nat.ofDigitChars_ten_toDigits]
    exact (magnitude_le_iff n).mpr hn
  rw [addendParser_eq hc, i64Parser,
    hc.intParser _ _ _ Nat.toDigits_ne_nil (isDigit_toDigits _) hrest hle,
    Nat.ofDigitChars_ten_toDigits]
  rfl

theorem addendParser_err {n : Int64} (hn : n = Int64.minValue) {rest : List Char}
    (hrest : Stops maybeInt rest) :
    ∃ e, addendParser c (':' :: (displayI64 n ++ rest)) = .commitErr e := by
  have hlt : 2 ^ 63 - 1 < Nat.ofDigitChars 10 (Nat.toDigits 10 (magnitude n)) 0 := by
    rw [Nat.ofDigitChars_ten_toDigits]
    exact Nat.not_le.mp fun hle => (magnitude_le_iff n).mp hle hn
  obtain ⟨e, he⟩ := hc.intParser_overflow _ _ rest Nat.toDigits_ne_nil (isDigit_toDigits _) hrest hlt
  refine ⟨e, ?_⟩
  rw [addendParser_eq hc, i64Parser, he]
  rfl

theorem parseDataReloc_ok {reloc : DataReloc} (hspelled : reloc.Spelled) (h : reloc.Readable)
    {rest : List Char} (hrest : Stops maybeInt rest) :
    parseDataReloc c (reloc.display ++ rest) = .commitOk reloc rest := by
  rw [reloc.display_append, parseDataReloc, u64Parser_display hc _ (stops_cons rfl)]
  show (symbolParser c _).andThen _ = _
  rw [symbolParser_ok hc h.1 hspelled (stops_cons rfl)]
  show (addendParser c _).map _ = _
  rw [addendParser_ok hc h.2 hrest]
  show Reply.commitOk (DataReloc.mk (UInt64.ofNat reloc.offset.toNat) reloc.symbol _) rest = _
  rw [addendOf_magnitude _ h.2, UInt64.ofNat_toNat]

theorem parseDataReloc_err {reloc : DataReloc} (hspelled : reloc.Spelled) (h : ¬ reloc.Readable)
    {rest : List Char} (hrest : Stops maybeInt rest) :
    ∃ e, parseDataReloc c (reloc.display ++ rest) = .commitErr e := by
  rw [reloc.display_append, parseDataReloc, u64Parser_display hc _ (stops_cons rfl)]
  show ∃ e, (symbolParser c _).andThen _ = _
  by_cases hne : reloc.symbol = []
  · rw [hne]
    have hcolon : Stops isSymbolChar (':' :: (displayI64 reloc.addend ++ rest)) := stops_cons rfl
    obtain ⟨e, he⟩ := symbolParser_err hc hcolon
    refine ⟨e, ?_⟩
    rw [List.nil_append, he]
    rfl
  · have hmin : reloc.addend = Int64.minValue := by
      by_contra hmin
      exact h ⟨hne, hmin⟩
    rw [symbolParser_ok hc hne hspelled (stops_cons rfl)]
    obtain ⟨e, he⟩ := addendParser_err hc hmin hrest
    refine ⟨e, ?_⟩
    show (addendParser c _).map _ = _
    rw [he]
    rfl

/-! ## Lists of relocations -/

theorem element_ok {reloc : DataReloc} (hspelled : reloc.Spelled) (h : reloc.Readable)
    {rest : List Char} (hint : Stops maybeInt rest) (hspace : Stops maybeSpace rest) :
    c.spaced (parseDataReloc c) (reloc.display ++ rest) = .commitOk reloc rest :=
  hc.spaced_ok (stops_display reloc rest) (parseDataReloc_ok hc hspelled h hint) hspace

theorem element_err {reloc : DataReloc} (hspelled : reloc.Spelled) (h : ¬ reloc.Readable)
    {rest : List Char} (hint : Stops maybeInt rest) :
    ∃ e, c.spaced (parseDataReloc c) (reloc.display ++ rest) = .commitErr e := by
  obtain ⟨e, he⟩ := parseDataReloc_err hc hspelled h hint
  exact ⟨e, hc.spaced_commitErr (stops_display reloc rest) he⟩

/-- A comma with the space behind it. -/
theorem comma_ok {rest : List Char} (hrest : Stops maybeSpace rest) :
    c.spaced (c.token ',') (',' :: ' ' :: rest) = .commitOk ',' rest :=
  hc.spaced_space (stops_cons rfl) (hc.token_ok _ _) hrest

/-- An element behind the first. -/
def nextElement (c : Combinators) : Parser DataReloc :=
  c.seqWith (c.spaced (c.token ',')) (c.spaced (parseDataReloc c))

theorem nextElement_eq (reloc : DataReloc) (relocs : List DataReloc) (rest : List Char) :
    nextElement c (tailText (reloc :: relocs) rest) =
      (c.spaced (parseDataReloc c) (reloc.display ++ tailText relocs rest)).commit := by
  rw [tailText_cons, nextElement, hc.seqWith_ok (comma_ok hc (stops_display _ _))]

theorem nextElement_ok {reloc : DataReloc} (hspelled : reloc.Spelled) (h : reloc.Readable)
    (relocs : List DataReloc) (rest : List Char) :
    nextElement c (tailText (reloc :: relocs) rest) = .commitOk reloc (tailText relocs rest) := by
  rw [nextElement_eq hc, element_ok hc hspelled h (stops_tailText rfl rfl _ _)
    (stops_tailText rfl rfl _ _)]
  rfl

theorem many_elements_ok {relocs : List DataReloc} (hspelled : ∀ reloc ∈ relocs, reloc.Spelled)
    (h : ∀ reloc ∈ relocs, reloc.Readable) (rest : List Char) :
    (c.many (nextElement c) (tailText relocs rest)).commit = .commitOk relocs (']' :: rest) := by
  induction relocs with
  | nil =>
    have hnext : Stops (· == ',') (']' :: rest) := stops_cons rfl
    obtain ⟨e, he⟩ := hc.token_err hnext
    have hend : nextElement c (']' :: rest) = .peekErr e :=
      hc.seqWith_peekErr (hc.spaced_peekErr (stops_cons rfl) he)
    show (c.many _ (']' :: rest)).commit = _
    rw [hc.many_nil _ _ _ hend]
    rfl
  | cons reloc relocs ih =>
    have hnext := nextElement_ok hc (hspelled _ List.mem_cons_self) (h _ List.mem_cons_self)
      relocs rest
    have hlt := length_tailText_lt reloc relocs rest
    have htail := ih (fun r hr => hspelled r (List.mem_cons_of_mem _ hr))
      fun r hr => h r (List.mem_cons_of_mem _ hr)
    rw [hc.many_cons _ _ _ _ hnext hlt, Reply.commit_commit, ← Reply.map_commit, htail]
    rfl

theorem many_elements_err {relocs : List DataReloc} (hspelled : ∀ reloc ∈ relocs, reloc.Spelled)
    (h : ¬ ∀ reloc ∈ relocs, reloc.Readable) (rest : List Char) :
    ∃ e, (c.many (nextElement c) (tailText relocs rest)).commit = .commitErr e := by
  induction relocs with
  | nil => exact absurd (fun _ hr => absurd hr List.not_mem_nil) h
  | cons reloc relocs ih =>
    by_cases hreloc : reloc.Readable
    · have hnext := nextElement_ok hc (hspelled _ List.mem_cons_self) hreloc relocs rest
      have hlt := length_tailText_lt reloc relocs rest
      obtain ⟨e, he⟩ := ih (fun r hr => hspelled r (List.mem_cons_of_mem _ hr)) fun hall =>
        h (List.forall_mem_cons.mpr ⟨hreloc, hall⟩)
      refine ⟨e, ?_⟩
      rw [hc.many_cons _ _ _ _ hnext hlt, Reply.commit_commit, ← Reply.map_commit, he]
      rfl
    · obtain ⟨e, he⟩ := element_err hc (hspelled _ List.mem_cons_self) hreloc
        (stops_tailText rfl rfl relocs rest)
      refine ⟨e, ?_⟩
      rw [hc.many_err _ _ e]
      · rfl
      · rw [nextElement_eq hc, he]
        rfl

/-- The list between the brackets. -/
def relocsList (c : Combinators) : Parser (List DataReloc) :=
  c.sepBy (c.spaced (parseDataReloc c)) (c.spaced (c.token ','))

theorem relocsList_nil (rest : List Char) :
    relocsList c (']' :: rest) = .peekOk [] (']' :: rest) := by
  have hint : Stops maybeInt (']' :: rest) := stops_cons rfl
  obtain ⟨e, he⟩ := hc.intParser_err (2 ^ 64 - 1) _ hint
  have hreloc : parseDataReloc c (']' :: rest) = .peekErr e := by
    rw [parseDataReloc, u64Parser, he]
    rfl
  exact hc.sepBy_nil _ _ _ _ (hc.spaced_peekErr (stops_cons rfl) hreloc)

theorem relocsList_ok {relocs : List DataReloc} (hspelled : ∀ reloc ∈ relocs, reloc.Spelled)
    (h : ∀ reloc ∈ relocs, reloc.Readable) (rest : List Char) :
    (relocsList c (displayRelocs relocs ++ ']' :: rest)).commit =
      .commitOk relocs (']' :: rest) := by
  cases relocs with
  | nil =>
    show (relocsList c (']' :: rest)).commit = _
    rw [relocsList_nil hc]
    rfl
  | cons reloc relocs =>
    have hfirst := element_ok hc (hspelled _ List.mem_cons_self) (h _ List.mem_cons_self)
      (stops_tailText rfl rfl relocs rest) (stops_tailText rfl rfl relocs rest)
    have htail := many_elements_ok hc (fun r hr => hspelled r (List.mem_cons_of_mem _ hr))
      (fun r hr => h r (List.mem_cons_of_mem _ hr)) rest
    rw [displayRelocs_cons, relocsList, hc.sepBy_cons _ _ _ _ _ hfirst, Reply.commit_commit,
      ← Reply.map_commit]
    show Reply.map _ (c.many (nextElement c) _).commit = _
    rw [htail]
    rfl

theorem relocsList_err {relocs : List DataReloc} (hspelled : ∀ reloc ∈ relocs, reloc.Spelled)
    (h : ¬ ∀ reloc ∈ relocs, reloc.Readable) (rest : List Char) :
    ∃ e, (relocsList c (displayRelocs relocs ++ ']' :: rest)).commit = .commitErr e := by
  cases relocs with
  | nil => exact absurd (fun _ hr => absurd hr List.not_mem_nil) h
  | cons reloc relocs =>
    rw [displayRelocs_cons, relocsList]
    by_cases hreloc : reloc.Readable
    · have hfirst := element_ok hc (hspelled _ List.mem_cons_self) hreloc
        (stops_tailText rfl rfl relocs rest) (stops_tailText rfl rfl relocs rest)
      obtain ⟨e, he⟩ := many_elements_err hc
        (fun r hr => hspelled r (List.mem_cons_of_mem _ hr))
        (fun hall => h (List.forall_mem_cons.mpr ⟨hreloc, hall⟩)) rest
      refine ⟨e, ?_⟩
      rw [hc.sepBy_cons _ _ _ _ _ hfirst, Reply.commit_commit, ← Reply.map_commit]
      show Reply.map _ (c.many (nextElement c) _).commit = _
      rw [he]
      rfl
    · obtain ⟨e, he⟩ := element_err hc (hspelled _ List.mem_cons_self) hreloc
        (stops_tailText rfl rfl relocs rest)
      refine ⟨e, ?_⟩
      rw [hc.sepBy_err _ _ _ _ he]
      rfl

theorem relocsParser_eq (relocs : List DataReloc) (rest : List Char) :
    relocsParser c ('[' :: (displayRelocs relocs ++ ']' :: rest)) =
      (relocsList c (displayRelocs relocs ++ ']' :: rest)).commit.bind fun list after =>
        (c.spaced (c.token ']') after).map fun _ => list := by
  have hopen : c.spaced (c.token '[') ('[' :: (displayRelocs relocs ++ ']' :: rest)) =
      .commitOk '[' (displayRelocs relocs ++ ']' :: rest) :=
    hc.spaced_ok (stops_cons rfl) (hc.token_ok _ _) (stops_displayRelocs relocs rest)
  rw [relocsParser, hc.between, hc.seqSkip, hc.seqWith_ok hopen]
  rfl

theorem relocsParser_ok {relocs : List DataReloc} (hspelled : ∀ reloc ∈ relocs, reloc.Spelled)
    (h : ∀ reloc ∈ relocs, reloc.Readable) {rest : List Char} (hrest : Stops maybeSpace rest) :
    relocsParser c ('[' :: (displayRelocs relocs ++ ']' :: rest)) = .commitOk relocs rest := by
  have hclose : c.spaced (c.token ']') (']' :: rest) = .commitOk ']' rest :=
    hc.spaced_ok (stops_cons rfl) (hc.token_ok _ _) hrest
  rw [relocsParser_eq hc, relocsList_ok hc hspelled h, Reply.bind, hclose]
  rfl

theorem relocsParser_err {relocs : List DataReloc} (hspelled : ∀ reloc ∈ relocs, reloc.Spelled)
    (h : ¬ ∀ reloc ∈ relocs, reloc.Readable) (rest : List Char) :
    ∃ e, relocsParser c ('[' :: (displayRelocs relocs ++ ']' :: rest)) = .commitErr e := by
  obtain ⟨e, he⟩ := relocsList_err hc hspelled h rest
  refine ⟨e, ?_⟩
  rw [relocsParser_eq hc, he, Reply.bind]

/-! ## Attributes -/

theorem word_ok {run rest : List Char} (hne : run ≠ []) (hrun : ∀ ch ∈ run, ch.isAlphanum = true)
    (hrest : Stops Char.isAlphanum rest) : word c (run ++ rest) = .commitOk run rest :=
  hc.many1 _ _ _ hne hrun hrest

theorem field_eq {α : Type} {name : String} (p : Parser α) {text : List Char}
    (hne : name.toList ≠ []) (hname : Stops maybeSpace (name.toList ++ text)) :
    field c name p (',' :: ' ' :: (name.toList ++ text)) = (p text).commit := by
  rw [field, hc.seqWith, hc.seqSkip, comma_ok hc hname, Reply.bind, hc.string _ _ hne]
  rfl

theorem BytesAttr.parse_display (attr : BytesAttr) {rest : List Char}
    (hrest : Stops Char.isAlphanum rest) :
    BytesAttr.parse c (attr.display ++ rest) = .commitOk attr rest := by
  have hne : attr.display ≠ [] := List.cons_ne_nil _ _
  rw [BytesAttr.parse, word_ok hc hne attr.isAlphanum_display hrest, Reply.bind,
    BytesAttr.parseStr_display]
  rfl

end Reading

/-! ### The fields -/

theorem DataAttr.display_append (attr : DataAttr) (rest : List Char) :
    attr.display ++ rest = "align=".toList ++ (displayU64 attr.align ++ ',' :: ' ' ::
      ("mut=".toList ++ (displayBool attr.mutable ++ ',' :: ' ' ::
        ("bytes=".toList ++ ((BytesAttr.mk attr.bytes).display ++ ',' :: ' ' ::
          ("relocs=".toList ++ '[' :: (displayRelocs attr.relocs ++ ']' :: rest))))))) := by
  have hmut : ", mut=".toList = ',' :: ' ' :: "mut=".toList := by decide
  have hbytes : ", bytes=".toList = ',' :: ' ' :: "bytes=".toList := by decide
  have hrelocs : ", relocs=[".toList = ',' :: ' ' :: ("relocs=".toList ++ ['[']) := by decide
  have hclose : "]".toList = [']'] := by decide
  delta DataAttr.display
  rw [hmut, hbytes, hrelocs, hclose]
  -- the names are not to be taken apart
  generalize "align=".toList = align, "mut=".toList = isMut, "bytes=".toList = bytes,
    "relocs=".toList = relocs
  simp only [List.flatten_cons, List.flatten_nil, List.append_assoc, List.cons_append,
    List.nil_append]

theorem isAlphanum_displayBool (b : Bool) : displayBool b ≠ [] ∧
    (∀ ch ∈ displayBool b, ch.isAlphanum = true) ∧ parseMutable (displayBool b) = some b := by
  rw [← List.all_eq_true]
  cases b <;> decide

theorem dataOf_display (attr : DataAttr) (rest : List Char) :
    dataOf attr.align.toNat (displayBool attr.mutable) (BytesAttr.mk attr.bytes).display attr.relocs
      rest = .peekOk attr rest := by
  rw [dataOf, (isAlphanum_displayBool attr.mutable).2.2, BytesAttr.parseStr_display,
    UInt64.ofNat_toNat]

section Data

variable {c : Combinators} (hc : c.Documented)
include hc

/-- The fields before the relocations are read back as they were printed. -/
theorem fieldsParser_eq (attr : DataAttr) (rest : List Char) :
    fieldsParser c (attr.display ++ rest) =
      ((relocsParser c ('[' :: (displayRelocs attr.relocs ++ ']' :: rest))).map fun relocs =>
        (attr.align.toNat, displayBool attr.mutable, (BytesAttr.mk attr.bytes).display,
          relocs)).commit := by
  obtain ⟨hbool, halnum, -⟩ := isAlphanum_displayBool attr.mutable
  have hbytes : (BytesAttr.mk attr.bytes).display ≠ [] := List.cons_ne_nil _ _
  have halign : ∀ after, Stops maybeInt after →
      c.seqWith (c.string "align=".toList) (u64Parser c)
        ("align=".toList ++ (displayU64 attr.align ++ after)) =
          .commitOk attr.align.toNat after := by
    intro after hafter
    rw [hc.seqWith_ok (hc.string _ _ (by decide)), u64Parser_display hc _ hafter]
    rfl
  have hmut : ∀ after, Stops Char.isAlphanum after →
      field c "mut=" (word c) (',' :: ' ' :: ("mut=".toList ++ (displayBool attr.mutable ++ after))) =
        .commitOk (displayBool attr.mutable) after := by
    intro after hafter
    rw [field_eq hc _ (by decide) (stops_cons rfl), word_ok hc hbool halnum hafter]
    rfl
  have hdata : ∀ after, Stops Char.isAlphanum after →
      field c "bytes=" (word c)
        (',' :: ' ' :: ("bytes=".toList ++ ((BytesAttr.mk attr.bytes).display ++ after))) =
          .commitOk (BytesAttr.mk attr.bytes).display after := by
    intro after hafter
    rw [field_eq hc _ (by decide) (stops_cons rfl),
      word_ok hc hbytes (BytesAttr.isAlphanum_display _) hafter]
    rfl
  rw [attr.display_append, fieldsParser, hc.tuple]
  rw [halign _ (stops_cons rfl), Reply.bind_commitOk, hmut _ (stops_cons rfl), Reply.bind_commitOk,
    hdata _ (stops_cons rfl), Reply.bind_commitOk]
  rw [field_eq hc _ (by decide) (stops_cons rfl), Reply.map_commit]
  simp only [Reply.commit_commit]

theorem DataAttr.parse_display {attr : DataAttr} (hspelled : ∀ reloc ∈ attr.relocs, reloc.Spelled)
    (h : ∀ reloc ∈ attr.relocs, reloc.Readable) {rest : List Char}
    (hrest : Stops maybeSpace rest) :
    DataAttr.parse c (attr.display ++ rest) = .commitOk attr rest := by
  rw [DataAttr.parse, fieldsParser_eq hc, relocsParser_ok hc hspelled h hrest]
  show (dataOf _ _ _ _ rest).commit = _
  rw [dataOf_display]
  rfl

theorem DataAttr.parse_err {attr : DataAttr} (hspelled : ∀ reloc ∈ attr.relocs, reloc.Spelled)
    (h : ¬ ∀ reloc ∈ attr.relocs, reloc.Readable) (rest : List Char) :
    ∃ e, DataAttr.parse c (attr.display ++ rest) = .commitErr e := by
  obtain ⟨e, he⟩ := relocsParser_err hc hspelled h rest
  refine ⟨e, ?_⟩
  rw [DataAttr.parse, fieldsParser_eq hc, he]
  rfl

end Data

/-! ## Round trips -/

/-- Printed bytes are read back, whatever they are.  A printed initializer is
    read back exactly if every relocation names a symbol and no addend is the
    least one. -/
theorem attributes_roundTrip_iff {c : Combinators} (hc : c.Documented) :
    (∀ (attr : BytesAttr) (rest : List Char), Stops Char.isAlphanum rest →
      (BytesAttr.parse c (attr.display ++ rest)).value? = some (attr, rest)) ∧
    ∀ (attr : DataAttr) (rest : List Char), Stops maybeSpace rest →
      (∀ reloc ∈ attr.relocs, reloc.Spelled) →
      ((DataAttr.parse c (attr.display ++ rest)).value? = some (attr, rest) ↔
        ∀ reloc ∈ attr.relocs, reloc.symbol ≠ [] ∧ reloc.addend ≠ Int64.minValue) := by
  refine ⟨fun attr rest hrest => ?_, fun attr rest hrest hspelled => ⟨fun hread => ?_, fun h => ?_⟩⟩
  · rw [BytesAttr.parse_display hc attr hrest]
    rfl
  · by_contra h
    obtain ⟨e, he⟩ := DataAttr.parse_err hc hspelled h rest
    rw [he] at hread
    cases hread
  · rw [DataAttr.parse_display hc hspelled h hrest]
    rfl

/-- A writable global with two pointer slots. -/
def twoSlots : DataAttr where
  bytes := [0x2a, 0x00, 0xff]
  align := 8
  mutable := true
  relocs := [⟨0, "other_global".toList, 16⟩, ⟨8, "_my.helper$1".toList, -4⟩]

theorem attributes_roundTrip_twoSlots :
    (BytesAttr.parse Combinators.reference (BytesAttr.mk [0x00, 0x9f]).display).value? =
      some (⟨[0x00, 0x9f]⟩, []) ∧
    (DataAttr.parse Combinators.reference twoSlots.display).value? = some (twoSlots, []) := by
  obtain ⟨hbytes, hdata⟩ := attributes_roundTrip_iff Combinators.reference_documented
  have hread := hbytes ⟨[0x00, 0x9f]⟩ [] (stops_nil _)
  have hslots := (hdata twoSlots [] (stops_nil _) (by decide)).mpr (by decide)
  rw [List.append_nil] at hread hslots
  exact ⟨hread, hslots⟩

/-- A global with one slot, of the least addend. -/
def leastAddend : DataAttr where
  bytes := [0, 0, 0, 0, 0, 0, 0, 0]
  align := 8
  mutable := false
  relocs := [⟨0, "sym".toList, Int64.minValue⟩]

/-- What is printed of the least addend is refused. -/
theorem leastAddend_not_read_back :
    (∀ reloc ∈ leastAddend.relocs, reloc.symbol ≠ [] ∧ reloc.Spelled) ∧
    leastAddend.display = ("align=8, mut=false, bytes=0x0000000000000000, " ++
      "relocs=[0:sym:-9223372036854775808]").toList ∧
    ∃ e, DataAttr.parse Combinators.reference leastAddend.display = .commitErr e := by
  refine ⟨by decide, by decide, ?_⟩
  have h := DataAttr.parse_err Combinators.reference_documented
    (show ∀ reloc ∈ leastAddend.relocs, reloc.Spelled by decide)
    (show ¬ ∀ reloc ∈ leastAddend.relocs, reloc.Readable from fun hall =>
      (hall _ List.mem_cons_self).2 rfl) []
  rwa [List.append_nil] at h

end Crabbit.Ll
