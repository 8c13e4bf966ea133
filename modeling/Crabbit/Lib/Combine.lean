/-
  Crabbit.Lib.Combine

  Parser combinators that say whether they have consumed input.  What the
  combinators do is a parameter, with their documentation as assumptions; a
  reference implementation meets it.
-/

import Mathlib.Data.List.Basic
import Mathlib.Tactic.TypeStar

namespace Crabbit.Lib

/-! ## Replies -/

inductive ParseError where
  | unexpected
  | message (text : String)
  deriving DecidableEq

/-- What a parser leaves: a value and the rest of the input or an error, with
    input consumed (`commit`) or not (`peek`). -/
inductive Reply (α : Type) where
  | commitOk (value : α) (rest : List Char)
  | peekOk (value : α) (rest : List Char)
  | commitErr (error : ParseError)
  | peekErr (error : ParseError)
  deriving DecidableEq

abbrev Parser (α : Type) : Type := List Char → Reply α

namespace Reply

variable {α β : Type}

def value? : Reply α → Option (α × List Char)
  | .commitOk a rest => some (a, rest)
  | .peekOk a rest => some (a, rest)
  | .commitErr _ => none
  | .peekErr _ => none

def map (f : α → β) : Reply α → Reply β
  | .commitOk a rest => .commitOk (f a) rest
  | .peekOk a rest => .peekOk (f a) rest
  | .commitErr e => .commitErr e
  | .peekErr e => .peekErr e

/-- The reply of a parser that runs after input was consumed. -/
def commit : Reply α → Reply α
  | .commitOk a rest => .commitOk a rest
  | .peekOk a rest => .commitOk a rest
  | .commitErr e => .commitErr e
  | .peekErr e => .commitErr e

/-- A parser after another. -/
def bind (r : Reply α) (f : α → Parser β) : Reply β :=
  match r with
  | .commitOk a rest => (f a rest).commit
  | .peekOk a rest => f a rest
  | .commitErr e => .commitErr e
  | .peekErr e => .peekErr e

/-- A reply turned into a result, and the computation that goes on with it:
    `into_result` and the question mark. -/
def andThen (r : Reply α) (f : α → List Char → Reply β) : Reply β :=
  match r with
  | .commitOk a rest => f a rest
  | .peekOk a rest => f a rest
  | .commitErr e => .commitErr e
  | .peekErr e => .peekErr e

theorem bind_commitOk (a : α) (rest : List Char) (f : α → Parser β) :
    (commitOk a rest).bind f = (f a rest).commit := rfl

@[simp] theorem commit_commit (r : Reply α) : r.commit.commit = r.commit := by
  cases r <;> rfl

theorem map_commit (f : α → β) (r : Reply α) : r.commit.map f = (r.map f).commit := by
  cases r <;> rfl

end Reply

/-! ## Combinators -/

/-- The combinators, by their names in the crates: `with`, `skip` and `and` of a
    parser are `seqWith`, `seqSkip` and `seqAnd`; `intParser` takes the largest
    value of its type. -/
structure Combinators where
  satisfy : (Char → Bool) → Parser Char
  token : Char → Parser Char
  string : List Char → Parser (List Char)
  many : {α : Type} → Parser α → Parser (List α)
  many1 : Parser Char → Parser (List Char)
  optional : {α : Type} → Parser α → Parser (Option α)
  seqAnd : {α β : Type} → Parser α → Parser β → Parser (α × β)
  seqWith : {α β : Type} → Parser α → Parser β → Parser β
  seqSkip : {α β : Type} → Parser α → Parser β → Parser α
  between : {α β γ : Type} → Parser α → Parser β → Parser γ → Parser γ
  sepBy : {α β : Type} → Parser α → Parser β → Parser (List α)
  tuple : {α β γ δ : Type} → Parser α → Parser β → Parser γ → Parser δ → Parser (α × β × γ × δ)
  spaces : Parser Unit
  spaced : {α : Type} → Parser α → Parser α
  intParser : Nat → Parser Nat

/-- The input does not go on with such a character. -/
def Stops (p : Char → Bool) (input : List Char) : Prop := ∀ c ∈ input.head?, p c = false

instance (p : Char → Bool) (input : List Char) : Decidable (Stops p input) :=
  Option.decidableForallMem (p := fun c => p c = false) input.head?

/-- A character that may be white space: the ASCII ones that are, and any other
    outside the printable ASCII characters. -/
def maybeSpace (ch : Char) : Bool := decide (ch.toNat ≤ 32) || decide (128 ≤ ch.toNat)

/-- A character that may go on with an integer. -/
def maybeInt (ch : Char) : Bool := ch.isDigit || ch == '-' || ch == '+'

/-- What the crates document of the combinators. -/
structure Combinators.Documented (c : Combinators) : Prop where
  satisfy : ∀ p ch rest, p ch = true → c.satisfy p (ch :: rest) = .commitOk ch rest
  satisfy_err : ∀ p input, Stops p input → ∃ e, c.satisfy p input = .peekErr e
  token : ∀ ch, c.token ch = c.satisfy (· == ch)
  string : ∀ text rest, text ≠ [] → c.string text (text ++ rest) = .commitOk text rest
  many_nil : ∀ {α} (p : Parser α) input e, p input = .peekErr e → c.many p input = .peekOk [] input
  many_cons : ∀ {α} (p : Parser α) input a rest, p input = .commitOk a rest →
    rest.length < input.length → c.many p input = ((c.many p rest).map (a :: ·)).commit
  many_err : ∀ {α} (p : Parser α) input e, p input = .commitErr e → c.many p input = .commitErr e
  many1 : ∀ p run rest, run ≠ [] → (∀ ch ∈ run, p ch = true) → Stops p rest →
    c.many1 (c.satisfy p) (run ++ rest) = .commitOk run rest
  many1_err : ∀ p input, Stops p input → ∃ e, c.many1 (c.satisfy p) input = .peekErr e
  optional_some : ∀ {α} (p : Parser α) input a rest, p input = .commitOk a rest →
    c.optional p input = .commitOk (some a) rest
  optional_none : ∀ {α} (p : Parser α) input e, p input = .peekErr e →
    c.optional p input = .peekOk none input
  seqAnd : ∀ {α β} (p : Parser α) (q : Parser β) input,
    c.seqAnd p q input = (p input).bind fun a rest => (q rest).map fun b => (a, b)
  seqWith : ∀ {α β} (p : Parser α) (q : Parser β) input,
    c.seqWith p q input = (p input).bind fun _ rest => q rest
  seqSkip : ∀ {α β} (p : Parser α) (q : Parser β) input,
    c.seqSkip p q input = (p input).bind fun a rest => (q rest).map fun _ => a
  between : ∀ {α β γ} (opened : Parser α) (closed : Parser β) (p : Parser γ) input,
    c.between opened closed p input = c.seqSkip (c.seqWith opened p) closed input
  sepBy_nil : ∀ {α β} (p : Parser α) (sep : Parser β) input e, p input = .peekErr e →
    c.sepBy p sep input = .peekOk [] input
  sepBy_cons : ∀ {α β} (p : Parser α) (sep : Parser β) input a rest,
    p input = .commitOk a rest →
    c.sepBy p sep input = ((c.many (c.seqWith sep p) rest).map (a :: ·)).commit
  sepBy_err : ∀ {α β} (p : Parser α) (sep : Parser β) input e, p input = .commitErr e →
    c.sepBy p sep input = .commitErr e
  tuple : ∀ {α β γ δ} (p : Parser α) (q : Parser β) (r : Parser γ) (s : Parser δ) input,
    c.tuple p q r s input = (p input).bind fun a => fun rest => (q rest).bind fun b => fun rest =>
      (r rest).bind fun x => fun rest => (s rest).map fun y => (a, b, x, y)
  spaces_none : ∀ input, Stops maybeSpace input → c.spaces input = .peekOk () input
  spaces_one : ∀ rest, Stops maybeSpace rest → c.spaces (' ' :: rest) = .commitOk () rest
  spaced : ∀ {α} (p : Parser α), c.spaced p = c.between c.spaces c.spaces p
  intParser : ∀ limit digits rest, digits ≠ [] → (∀ ch ∈ digits, ch.isDigit = true) →
    Stops maybeInt rest → Nat.ofDigitChars 10 digits 0 ≤ limit →
    c.intParser limit (digits ++ rest) = .commitOk (Nat.ofDigitChars 10 digits 0) rest
  intParser_overflow : ∀ limit digits rest, digits ≠ [] → (∀ ch ∈ digits, ch.isDigit = true) →
    Stops maybeInt rest → limit < Nat.ofDigitChars 10 digits 0 →
    ∃ e, c.intParser limit (digits ++ rest) = .commitErr e
  intParser_err : ∀ limit input, Stops maybeInt input → ∃ e, c.intParser limit input = .peekErr e

/-! ## Rules -/

namespace Combinators.Documented

variable {c : Combinators} (hc : c.Documented) {α β : Type}
include hc

theorem token_ok (ch : Char) (rest : List Char) :
    c.token ch (ch :: rest) = .commitOk ch rest := by
  rw [hc.token]
  exact hc.satisfy _ _ _ (beq_self_eq_true ch)

theorem token_err {ch : Char} {input : List Char} (h : Stops (· == ch) input) :
    ∃ e, c.token ch input = .peekErr e := by
  rw [hc.token]
  exact hc.satisfy_err _ _ h

/-- A parser between spaces, where there are none before it. -/
theorem spaced_eq {p : Parser α} {input : List Char} (hinput : Stops maybeSpace input) :
    c.spaced p input = (p input).bind fun a rest => (c.spaces rest).map fun _ => a := by
  rw [hc.spaced, hc.between, hc.seqSkip, hc.seqWith, hc.spaces_none _ hinput]
  rfl

theorem spaced_ok {p : Parser α} {input rest : List Char} {a : α}
    (hinput : Stops maybeSpace input) (hp : p input = .commitOk a rest)
    (hrest : Stops maybeSpace rest) : c.spaced p input = .commitOk a rest := by
  rw [hc.spaced_eq hinput, hp, Reply.bind, hc.spaces_none _ hrest]
  rfl

/-- The space behind what is read is read too. -/
theorem spaced_space {p : Parser α} {input rest : List Char} {a : α}
    (hinput : Stops maybeSpace input) (hp : p input = .commitOk a (' ' :: rest))
    (hrest : Stops maybeSpace rest) : c.spaced p input = .commitOk a rest := by
  rw [hc.spaced_eq hinput, hp, Reply.bind, hc.spaces_one _ hrest]
  rfl

theorem spaced_peekErr {p : Parser α} {input : List Char} {e : ParseError}
    (hinput : Stops maybeSpace input) (hp : p input = .peekErr e) :
    c.spaced p input = .peekErr e := by
  rw [hc.spaced_eq hinput, hp, Reply.bind]

theorem spaced_commitErr {p : Parser α} {input : List Char} {e : ParseError}
    (hinput : Stops maybeSpace input) (hp : p input = .commitErr e) :
    c.spaced p input = .commitErr e := by
  rw [hc.spaced_eq hinput, hp, Reply.bind]

theorem seqWith_ok {p : Parser α} {q : Parser β} {input rest : List Char} {a : α}
    (hp : p input = .commitOk a rest) : c.seqWith p q input = (q rest).commit := by
  rw [hc.seqWith, hp, Reply.bind]

theorem seqWith_peekErr {p : Parser α} {q : Parser β} {input : List Char} {e : ParseError}
    (hp : p input = .peekErr e) : c.seqWith p q input = .peekErr e := by
  rw [hc.seqWith, hp, Reply.bind]

end Combinators.Documented

/-! ## A reference implementation -/

namespace Combinators

def satisfyRef (p : Char → Bool) : Parser Char
  | ch :: rest => if p ch then .commitOk ch rest else .peekErr .unexpected
  | [] => .peekErr .unexpected

def stringRef (text : List Char) : Parser (List Char) := fun input =>
  if text <+: input then .commitOk text (input.drop text.length)
  else if text.head? = input.head? then .commitErr .unexpected
  else .peekErr .unexpected

/-- An element that takes no input would be taken for ever: here it is an error. -/
def manyRef {α : Type} (p : Parser α) (input : List Char) : Reply (List α) :=
  match p input with
  | .commitOk a rest =>
    if rest.length < input.length then ((manyRef p rest).map (a :: ·)).commit
    else .commitErr .unexpected
  | .peekOk _ _ => .commitErr .unexpected
  | .commitErr e => .commitErr e
  | .peekErr _ => .peekOk [] input
termination_by input.length

def optionalRef {α : Type} (p : Parser α) : Parser (Option α) := fun input =>
  match p input with
  | .commitOk a rest => .commitOk (some a) rest
  | .peekOk a rest => .peekOk (some a) rest
  | .commitErr e => .commitErr e
  | .peekErr _ => .peekOk none input

def seqWithRef {α β : Type} (p : Parser α) (q : Parser β) : Parser β := fun input =>
  (p input).bind fun _ rest => q rest

def seqSkipRef {α β : Type} (p : Parser α) (q : Parser β) : Parser α := fun input =>
  (p input).bind fun a rest => (q rest).map fun _ => a

def sepByRef {α β : Type} (p : Parser α) (sep : Parser β) : Parser (List α) := fun input =>
  match p input with
  | .commitOk a rest => ((manyRef (seqWithRef sep p) rest).map (a :: ·)).commit
  | .peekOk a rest => (manyRef (seqWithRef sep p) rest).map (a :: ·)
  | .commitErr e => .commitErr e
  | .peekErr _ => .peekOk [] input

def many1Ref (p : Parser Char) : Parser (List Char) := fun input =>
  (p input).bind fun ch rest => (manyRef p rest).map (ch :: ·)

def spacesRef : Parser Unit := fun input =>
  if Stops Char.isWhitespace input then .peekOk () input
  else .commitOk () (input.dropWhile Char.isWhitespace)

def betweenRef {α β γ : Type} (opened : Parser α) (closed : Parser β) (p : Parser γ) :
    Parser γ :=
  seqSkipRef (seqWithRef opened p) closed

def intParserRef (limit : Nat) : Parser Nat := fun input =>
  let digits := input.takeWhile Char.isDigit
  if digits = [] then .peekErr .unexpected
  else if Nat.ofDigitChars 10 digits 0 ≤ limit then
    .commitOk (Nat.ofDigitChars 10 digits 0) (input.dropWhile Char.isDigit)
  else .commitErr (.message "number too large to fit in target type")

def reference : Combinators where
  satisfy := satisfyRef
  token ch := satisfyRef (· == ch)
  string := stringRef
  many := manyRef
  many1 := many1Ref
  optional := optionalRef
  seqAnd p q := fun input => (p input).bind fun a rest => (q rest).map fun b => (a, b)
  seqWith := seqWithRef
  seqSkip := seqSkipRef
  between := betweenRef
  sepBy := sepByRef
  tuple p q r s := fun input =>
    (p input).bind fun a => fun rest => (q rest).bind fun b => fun rest =>
      (r rest).bind fun x => fun rest => (s rest).map fun y => (a, b, x, y)
  spaces := spacesRef
  spaced p := betweenRef spacesRef spacesRef p
  intParser := intParserRef

/-! ### It does what is documented -/

theorem satisfyRef_ok {p : Char → Bool} {ch : Char} {rest : List Char} (h : p ch = true) :
    satisfyRef p (ch :: rest) = .commitOk ch rest := by
  rw [satisfyRef, if_pos h]

theorem satisfyRef_err {p : Char → Bool} {input : List Char} (h : Stops p input) :
    satisfyRef p input = .peekErr .unexpected := by
  cases input with
  | nil => rfl
  | cons ch rest =>
    have hp : p ch = false := h ch rfl
    rw [satisfyRef, hp, if_neg Bool.false_ne_true]

theorem manyRef_nil {α : Type} {p : Parser α} {input : List Char} {e : ParseError}
    (h : p input = .peekErr e) : manyRef p input = .peekOk [] input := by
  rw [manyRef, h]

theorem manyRef_cons {α : Type} {p : Parser α} {input rest : List Char} {a : α}
    (h : p input = .commitOk a rest) (hlt : rest.length < input.length) :
    manyRef p input = ((manyRef p rest).map (a :: ·)).commit := by
  rw [manyRef, h]
  exact if_pos hlt

theorem manyRef_err {α : Type} {p : Parser α} {input : List Char} {e : ParseError}
    (h : p input = .commitErr e) : manyRef p input = .commitErr e := by
  rw [manyRef, h]

/-- `manyRef` of a character takes a whole run of them. -/
theorem manyRef_run {p : Char → Bool} {run rest : List Char} (hrun : ∀ ch ∈ run, p ch = true)
    (hrest : Stops p rest) :
    (manyRef (satisfyRef p) (run ++ rest)).commit = .commitOk run rest := by
  induction run with
  | nil =>
    rw [List.nil_append, manyRef_nil (satisfyRef_err hrest)]
    rfl
  | cons ch run ih =>
    have hok : satisfyRef p (ch :: (run ++ rest)) = .commitOk ch (run ++ rest) :=
      satisfyRef_ok (hrun ch List.mem_cons_self)
    have htail := ih fun c hc => hrun c (List.mem_cons_of_mem _ hc)
    rw [List.cons_append, manyRef_cons hok (Nat.lt_succ_self _)]
    cases hreply : manyRef (satisfyRef p) (run ++ rest) with
    | commitOk a r | peekOk a r =>
      rw [hreply] at htail
      cases htail
      rfl
    | commitErr e | peekErr e =>
      rw [hreply] at htail
      cases htail

theorem many1Ref_run {p : Char → Bool} {run rest : List Char} (hne : run ≠ [])
    (hrun : ∀ ch ∈ run, p ch = true) (hrest : Stops p rest) :
    many1Ref (satisfyRef p) (run ++ rest) = .commitOk run rest := by
  cases run with
  | nil => exact absurd rfl hne
  | cons ch run =>
    have htail := manyRef_run (fun c hc => hrun c (List.mem_cons_of_mem _ hc)) hrest
    rw [List.cons_append, many1Ref, satisfyRef_ok (hrun ch List.mem_cons_self), Reply.bind]
    cases hreply : manyRef (satisfyRef p) (run ++ rest) with
    | commitOk a r | peekOk a r =>
      rw [hreply] at htail
      cases htail
      rfl
    | commitErr e | peekErr e =>
      rw [hreply] at htail
      cases htail

/-- A run is what `takeWhile` takes. -/
theorem takeWhile_run {p : Char → Bool} {run rest : List Char} (hrun : ∀ ch ∈ run, p ch = true)
    (hrest : Stops p rest) : (run ++ rest).takeWhile p = run ∧ (run ++ rest).dropWhile p = rest := by
  have hnone : rest.takeWhile p = [] ∧ rest.dropWhile p = rest := by
    cases rest with
    | nil => exact ⟨rfl, rfl⟩
    | cons ch rest =>
      have hp : ¬ p ch = true := by
        rw [hrest ch rfl]
        exact Bool.false_ne_true
      exact ⟨List.takeWhile_cons_of_neg hp, List.dropWhile_cons_of_neg hp⟩
  rw [List.takeWhile_append_of_pos hrun, List.dropWhile_append_of_pos hrun, hnone.1, hnone.2]
  exact ⟨List.append_nil run, rfl⟩

theorem stops_mono {p q : Char → Bool} (hpq : ∀ ch, p ch = true → q ch = true) {input : List Char}
    (h : Stops q input) : Stops p input := by
  intro ch hch
  cases hp : p ch with
  | false => rfl
  | true => exact absurd (hpq ch hp) (by rw [h ch hch]; exact Bool.false_ne_true)

theorem maybeSpace_of_isWhitespace (ch : Char) (h : ch.isWhitespace = true) :
    maybeSpace ch = true := by
  simp only [Char.isWhitespace, Bool.or_eq_true, decide_eq_true_eq] at h
  rcases h with ((rfl | rfl) | rfl) | rfl <;> decide

theorem maybeInt_of_isDigit (ch : Char) (h : ch.isDigit = true) : maybeInt ch = true := by
  rw [maybeInt, h]
  rfl

theorem intParserRef_run {limit : Nat} {digits rest : List Char} (hne : digits ≠ [])
    (hdigits : ∀ ch ∈ digits, ch.isDigit = true) (hrest : Stops maybeInt rest) :
    intParserRef limit (digits ++ rest) =
      if Nat.ofDigitChars 10 digits 0 ≤ limit then .commitOk (Nat.ofDigitChars 10 digits 0) rest
      else .commitErr (.message "number too large to fit in target type") := by
  obtain ⟨htake, hdrop⟩ := takeWhile_run hdigits (stops_mono maybeInt_of_isDigit hrest)
  rw [intParserRef, htake, hdrop]
  exact if_neg hne

theorem reference_documented : reference.Documented where
  satisfy _ _ _ := satisfyRef_ok
  satisfy_err _ _ h := ⟨_, satisfyRef_err h⟩
  token _ := rfl
  string text rest _ := by
    show stringRef text (text ++ rest) = _
    rw [stringRef, if_pos (List.prefix_append text rest), List.drop_left]
  many_nil _ _ _ := manyRef_nil
  many_cons _ _ _ _ := manyRef_cons
  many_err _ _ _ := manyRef_err
  many1 _ _ _ := many1Ref_run
  many1_err p input h := by
    show ∃ e, many1Ref (satisfyRef p) input = .peekErr e
    rw [many1Ref, satisfyRef_err h]
    exact ⟨_, rfl⟩
  optional_some p input a rest h := by
    show optionalRef p input = _
    rw [optionalRef, h]
  optional_none p input e h := by
    show optionalRef p input = _
    rw [optionalRef, h]
  seqAnd _ _ _ := rfl
  seqWith _ _ _ := rfl
  seqSkip _ _ _ := rfl
  between _ _ _ _ := rfl
  sepBy_nil p sep input e h := by
    show sepByRef p sep input = _
    rw [sepByRef, h]
  sepBy_cons p sep input a rest h := by
    show sepByRef p sep input = _
    rw [sepByRef, h]
    rfl
  sepBy_err p sep input e h := by
    show sepByRef p sep input = _
    rw [sepByRef, h]
  tuple _ _ _ _ _ := rfl
  spaces_none input h := if_pos (stops_mono maybeSpace_of_isWhitespace h)
  spaces_one rest h := by
    have hspace : ∀ ch ∈ [' '], ch.isWhitespace = true := by
      intro ch hch
      rw [List.mem_singleton.mp hch]
      rfl
    have hdrop := (takeWhile_run hspace (stops_mono maybeSpace_of_isWhitespace h)).2
    rw [List.singleton_append] at hdrop
    change spacesRef (' ' :: rest) = _
    rw [spacesRef, if_neg, hdrop]
    intro hstops
    exact absurd (hstops ' ' rfl) (by decide)
  spaced _ := rfl
  intParser limit digits rest hne hdigits hrest hle := by
    show intParserRef limit (digits ++ rest) = _
    rw [intParserRef_run hne hdigits hrest, if_pos hle]
  intParser_overflow limit digits rest hne hdigits hrest hlt := by
    refine ⟨.message "number too large to fit in target type", ?_⟩
    show intParserRef limit (digits ++ rest) = _
    rw [intParserRef_run hne hdigits hrest, if_neg (Nat.not_le.mpr hlt)]
  intParser_err limit input h := by
    have hnone : ∀ ch ∈ ([] : List Char), ch.isDigit = true := fun _ h => absurd h List.not_mem_nil
    have htake := (takeWhile_run hnone (stops_mono maybeInt_of_isDigit h)).1
    refine ⟨.unexpected, ?_⟩
    show intParserRef limit input = _
    rw [intParserRef]
    exact if_pos htake

end Combinators

end Crabbit.Lib
