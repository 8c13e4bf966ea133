/-
  Crabbit.Lib.Text

  Trimming text and splitting it into lines; text is a list of characters here.
-/

import Mathlib.Data.List.Basic

namespace Crabbit.Lib

/-- The Unicode property White_Space. -/
def isWhiteSpace (c : Char) : Bool :=
  let n := c.toNat
  (0x9 ≤ n && n ≤ 0xd) || n == 0x20 || n == 0x85 || n == 0xa0 || n == 0x1680 ||
    (0x2000 ≤ n && n ≤ 0x200a) || n == 0x2028 || n == 0x2029 || n == 0x202f || n == 0x205f ||
    n == 0x3000

/-- A character of seven bits. -/
def isAscii (c : Char) : Bool := decide (c.toNat < 128)

section Trim

variable (p : Char → Bool)

def trimStartMatches (text : List Char) : List Char := text.dropWhile p

def trimEndMatches (text : List Char) : List Char := (text.reverse.dropWhile p).reverse

def trimMatches (text : List Char) : List Char := trimEndMatches p (trimStartMatches p text)

variable {p}

theorem trimStartMatches_eq_self {text : List Char} (h : ∀ c ∈ text.head?, p c = false) :
    trimStartMatches p text = text := by
  cases text with
  | nil => rfl
  | cons c text =>
    have hc : ¬ p c = true := by rw [h c rfl]; decide
    exact List.dropWhile_cons_of_neg hc

theorem trimEndMatches_eq_self {text : List Char} (h : ∀ c ∈ text.getLast?, p c = false) :
    trimEndMatches p text = text := by
  have hrev : ∀ c ∈ text.reverse.head?, p c = false := by rwa [List.head?_reverse]
  have := trimStartMatches_eq_self hrev
  rw [trimStartMatches] at this
  rw [trimEndMatches, this, List.reverse_reverse]

/-- Text that neither starts nor ends with what is trimmed is left alone. -/
theorem trimMatches_eq_self {text : List Char} (hhead : ∀ c ∈ text.head?, p c = false)
    (hlast : ∀ c ∈ text.getLast?, p c = false) : trimMatches p text = text := by
  rw [trimMatches, trimStartMatches_eq_self hhead, trimEndMatches_eq_self hlast]

/-! ### What is left -/

theorem mem_of_mem_trimMatches {text : List Char} {c : Char} (h : c ∈ trimMatches p text) :
    c ∈ text := by
  have hend := (List.dropWhile_sublist p).mem (List.mem_reverse.mp h)
  exact (List.dropWhile_sublist p).mem (List.mem_reverse.mp hend)

theorem head_trimStartMatches {text : List Char} : ∀ c ∈ (trimStartMatches p text).head?,
    p c = false := by
  intro c hc
  have h := List.head?_dropWhile_not p text
  rw [trimStartMatches] at hc
  rw [hc] at h
  simpa using h

theorem getLast_trimEndMatches {text : List Char} : ∀ c ∈ (trimEndMatches p text).getLast?,
    p c = false := by
  intro c hc
  rw [trimEndMatches, List.getLast?_reverse] at hc
  exact head_trimStartMatches c hc

/-- Trimming the end leaves the start. -/
theorem trimEndMatches_isPrefix (text : List Char) : trimEndMatches p text <+: text := by
  have h := List.dropWhile_suffix p (l := text.reverse)
  rwa [← List.reverse_prefix, List.reverse_reverse] at h

theorem head_trimMatches {text : List Char} : ∀ c ∈ (trimMatches p text).head?, p c = false := by
  intro c hc
  refine @head_trimStartMatches p text c ?_
  obtain ⟨after, hafter⟩ := trimEndMatches_isPrefix (p := p) (trimStartMatches p text)
  rw [trimMatches] at hc
  rw [← hafter, List.head?_append, hc]
  rfl

theorem trimMatches_trimMatches (text : List Char) :
    trimMatches p (trimMatches p text) = trimMatches p text :=
  trimMatches_eq_self head_trimMatches getLast_trimEndMatches

theorem trimEndMatches_concat {text : List Char} {c : Char} (hc : p c = true) :
    trimEndMatches p (text ++ [c]) = trimEndMatches p text := by
  rw [trimEndMatches, List.reverse_append, List.reverse_singleton, List.singleton_append,
    List.dropWhile_cons_of_pos hc, trimEndMatches]

theorem trimMatches_cons {text : List Char} {c : Char} (hc : p c = true) :
    trimMatches p (c :: text) = trimMatches p text := by
  rw [trimMatches, trimStartMatches, List.dropWhile_cons_of_pos hc, trimMatches, trimStartMatches]

theorem trimMatches_concat {text : List Char} {c : Char} (hc : p c = true) :
    trimMatches p (text ++ [c]) = trimMatches p text := by
  induction text with
  | nil => rw [List.nil_append, trimMatches_cons hc]
  | cons d text ih =>
    by_cases hd : p d = true
    · rw [List.cons_append, trimMatches_cons hd, ih, trimMatches_cons hd]
    · rw [List.cons_append, trimMatches, trimMatches, trimStartMatches, trimStartMatches,
        List.dropWhile_cons_of_neg hd, List.dropWhile_cons_of_neg hd, ← List.cons_append,
        trimEndMatches_concat hc]

theorem length_trimMatches_le (text : List Char) : (trimMatches p text).length ≤ text.length :=
  Nat.le_trans (trimEndMatches_isPrefix _).length_le (List.dropWhile_suffix p).length_le

end Trim

/-- `str::trim` -/
def trim (text : List Char) : List Char := trimMatches isWhiteSpace text

/-! ## Patterns -/

/-- `trim_start_matches` of a string: it is removed as often as it is there. -/
def trimStartText (pattern text : List Char) : List Char :=
  if pattern ≠ [] ∧ pattern <+: text then trimStartText pattern (text.drop pattern.length)
  else text
termination_by text.length
decreasing_by
  rename_i h
  have hpattern := List.length_pos_iff.mpr h.1
  have hle := h.2.length_le
  rw [List.length_drop]
  omega

/-- `trim_end_matches` of a string -/
def trimEndText (pattern text : List Char) : List Char :=
  (trimStartText pattern.reverse text.reverse).reverse

theorem trimStartText_append {pattern text : List Char} (hne : pattern ≠ [])
    (htext : ¬ pattern <+: text) : trimStartText pattern (pattern ++ text) = text := by
  rw [trimStartText, if_pos ⟨hne, List.prefix_append _ _⟩, List.drop_left, trimStartText,
    if_neg fun h => htext h.2]

theorem trimEndText_append {pattern text : List Char} (hne : pattern ≠ [])
    (htext : ¬ pattern <:+ text) : trimEndText pattern (text ++ pattern) = text := by
  have hrev : ¬ pattern.reverse <+: text.reverse := fun h => htext (List.reverse_prefix.mp h)
  rw [trimEndText, List.reverse_append, trimStartText_append (by simpa using hne) hrev,
    List.reverse_reverse]

theorem trimStartText_suffix (pattern text : List Char) : trimStartText pattern text <:+ text := by
  induction text using trimStartText.induct pattern with
  | case1 text h ih =>
    rw [trimStartText, if_pos h]
    exact ih.trans (List.drop_suffix _ _)
  | case2 text h =>
    have heq : trimStartText pattern text = text := by rw [trimStartText, if_neg h]
    exact heq.symm ▸ List.suffix_refl text

theorem trimEndText_isPrefix (pattern text : List Char) : trimEndText pattern text <+: text := by
  have hrev := List.reverse_prefix.mpr (trimStartText_suffix pattern.reverse text.reverse)
  rwa [List.reverse_reverse] at hrev

/-! ## Lines -/

/-- A carriage return before the line's end belongs to the end. -/
def stripCr (line : List Char) : List Char :=
  if line.getLast? = some '\r' then line.dropLast else line

/-- `str::lines`: what is behind the last line break is a line if it is not empty. -/
def lines (text : List Char) : List (List Char) :=
  (text.splitOn '\n').dropLast.map stripCr ++ (text.splitOn '\n').getLast?.toList.filter (· ≠ [])

theorem lines_append (before after : List Char) :
    lines (before ++ '\n' :: after) = (before.splitOn '\n').map stripCr ++ lines after := by
  have hne : after.splitOn '\n' ≠ [] := List.splitOn_ne_nil _ _
  rw [lines, List.splitOn_append_cons_self, List.dropLast_append_of_ne_nil hne, List.map_append,
    List.getLast?_append_of_ne_nil _ hne, List.append_assoc, lines]

/-- The lines with their ends are the text with an end. -/
theorem flatMap_splitOn (text : List Char) :
    ((text.splitOn '\n').flatMap fun line => line ++ ['\n']) = text ++ ['\n'] := by
  induction text with
  | nil => rfl
  | cons c text ih =>
    rw [List.splitOn_cons_eq_if_modifyHead]
    by_cases hc : c = '\n'
    · subst hc
      rw [if_pos (beq_self_eq_true _), List.flatMap_cons, ih]
      rfl
    · rw [if_neg (by simpa using hc)]
      cases hsplit : text.splitOn '\n' with
      | nil => exact absurd hsplit (List.splitOn_ne_nil _ _)
      | cons line rest =>
        rw [hsplit] at ih
        show c :: line ++ ['\n'] ++ _ = _
        rw [List.cons_append, List.cons_append]
        exact congrArg (c :: ·) ih

theorem notMem_of_mem_splitOn {text line : List Char} (h : line ∈ text.splitOn '\n') :
    '\n' ∉ line := by
  induction text generalizing line with
  | nil =>
    rw [List.splitOn_nil] at h
    rw [List.mem_singleton.mp h]
    exact List.not_mem_nil
  | cons c text ih =>
    rw [List.splitOn_cons_eq_if_modifyHead] at h
    by_cases hc : c = '\n'
    · rw [if_pos (beq_iff_eq.mpr hc)] at h
      rcases List.mem_cons.mp h with rfl | h
      · exact List.not_mem_nil
      · exact ih h
    · rw [if_neg (by simpa using hc)] at h
      cases hsplit : text.splitOn '\n' with
      | nil => exact absurd hsplit (List.splitOn_ne_nil _ _)
      | cons first rest =>
        rw [hsplit] at h ih
        rcases List.mem_cons.mp h with rfl | h
        · intro hmem
          rcases List.mem_cons.mp hmem with heq | hmem
          · exact hc heq.symm
          · exact ih List.mem_cons_self hmem
        · exact ih (List.mem_cons_of_mem _ h)

theorem stripCr_sublist (line : List Char) : (stripCr line).Sublist line := by
  rw [stripCr]
  split
  · exact List.dropLast_sublist line
  · exact List.Sublist.refl line

theorem stripCr_eq_self {line : List Char} (h : line.getLast? ≠ some '\r') :
    stripCr line = line := if_neg h

theorem length_stripCr_lt {line : List Char} (h : line.getLast? = some '\r') :
    (stripCr line).length < line.length := by
  have hpos : 0 < line.length := List.length_pos_iff.mpr fun hnil => by rw [hnil] at h; cases h
  rw [stripCr, if_pos h, List.length_dropLast]
  omega

theorem notMem_of_mem_lines {text line : List Char} (h : line ∈ lines text) : '\n' ∉ line := by
  rcases List.mem_append.mp h with h | h
  · obtain ⟨whole, hwhole, rfl⟩ := List.mem_map.mp h
    intro hmem
    exact notMem_of_mem_splitOn ((List.dropLast_sublist _).mem hwhole) ((stripCr_sublist whole).mem hmem)
  · have hlast := Option.mem_toList.mp (List.mem_of_mem_filter h)
    exact notMem_of_mem_splitOn (List.mem_of_getLast? hlast)

end Crabbit.Lib
