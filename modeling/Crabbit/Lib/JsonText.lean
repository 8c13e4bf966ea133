/-
  Crabbit.Lib.JsonText

  Braces and strings in JSON text.  Of the grammar only that much is kept: a
  string ends at the first quote that no backslash precedes, and outside
  strings every brace has its partner.
-/

import Mathlib.Data.List.Basic

namespace Crabbit.Lib

/-- What may stand between the quotes of a string. -/
inductive StringBody : List Char → Prop where
  | nil : StringBody []
  | plain (c : Char) {rest : List Char} : c ≠ '"' → c ≠ '\\' → StringBody rest →
      StringBody (c :: rest)
  | escape (c : Char) {rest : List Char} : StringBody rest → StringBody ('\\' :: c :: rest)

/-- Text of values, with braces and strings that are closed. -/
inductive Balanced : List Char → Prop where
  | nil : Balanced []
  | plain (c : Char) {rest : List Char} : c ≠ '"' → c ≠ '{' → c ≠ '}' → Balanced rest →
      Balanced (c :: rest)
  | string {body rest : List Char} : StringBody body → Balanced rest →
      Balanced ('"' :: (body ++ '"' :: rest))
  | braces {inner rest : List Char} : Balanced inner → Balanced rest →
      Balanced ('{' :: (inner ++ '}' :: rest))

theorem Balanced.append {text after : List Char} (h : Balanced text) (hafter : Balanced after) :
    Balanced (text ++ after) := by
  induction h with
  | nil => exact hafter
  | plain c hquote hopen hclose _ ih => exact .plain c hquote hopen hclose ih
  | string hbody _ ih =>
    rw [List.cons_append, List.append_assoc, List.cons_append]
    exact .string hbody ih
  | braces hinner _ _ ih =>
    rw [List.cons_append, List.append_assoc, List.cons_append]
    exact .braces hinner ih

/-- An object in compact form. -/
def IsObject (text : List Char) : Prop := ∃ members, Balanced members ∧ text = '{' :: (members ++ ['}'])

end Crabbit.Lib
