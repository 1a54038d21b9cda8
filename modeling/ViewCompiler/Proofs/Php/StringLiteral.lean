import ViewCompiler.Php.Fragment
import ViewCompiler.Proofs.Expression.Reference

/-!
# Reading string literals back

The host language reads a single-quoted string up to the first quote that no backslash escapes, and
a backslash escapes only a backslash or a quote (`singleQuoted?`). The literal of a text is read as
the text, whatever stands behind the literal (`singleQuoted?_stringLiteral`), because the escapes
of its characters are read one by one: none starts with a quote, and a backslash never escapes what
is not its own. The literals of the compiler end at the same place (`literal?_stringLiteral`).
-/

namespace ViewCompiler.Php

open Expression (Literal Inside literal?)

/-! ## The reader of the host language -/

/-- Reads a single-quoted string behind its opening quote; gives its text and the rest. -/
def untilQuote? : List Char → Option (List Char × List Char)
  | [] => none
  | '\\' :: '\\' :: cs => (untilQuote? cs).map fun found => ('\\' :: found.1, found.2)
  | '\\' :: '\'' :: cs => (untilQuote? cs).map fun found => ('\'' :: found.1, found.2)
  | '\'' :: cs => some ([], cs)
  | c :: cs => (untilQuote? cs).map fun found => (c :: found.1, found.2)

/-- Reads a single-quoted string. -/
def singleQuoted? : List Char → Option (List Char × List Char)
  | '\'' :: cs => untilQuote? cs
  | _ => none

/-- A character that is neither a quote nor a backslash is read as itself. -/
theorem untilQuote?_cons {c : Char} (hback : c ≠ '\\') (hquote : c ≠ '\'') (cs : List Char) :
    untilQuote? (c :: cs) = (untilQuote? cs).map fun found => (c :: found.1, found.2) := by
  rw [untilQuote?]
  · exact fun _ h => absurd h hback
  · exact fun _ h => absurd h hback
  · exact hquote

/-! ## Reading a literal -/

/-- The characters of a literal: the quotes, and the escaped characters between them. -/
theorem toList_stringLiteral (text : String) :
    (stringLiteral text).toList = '\'' :: (text.toList.flatMap escapeChar ++ ['\'']) := by
  simp [stringLiteral]

/-- Escaped characters are read one by one. -/
theorem untilQuote?_escaped (text following : List Char) :
    untilQuote? (text.flatMap escapeChar ++ '\'' :: following) = some (text, following) := by
  induction text with
  | nil => rfl
  | cons c text ih =>
    rw [List.flatMap_cons, List.append_assoc]
    by_cases hback : c = '\\'
    · rw [hback]
      show untilQuote? ('\\' :: '\\' :: (text.flatMap escapeChar ++ '\'' :: following)) = _
      rw [untilQuote?, ih]
      rfl
    · by_cases hquote : c = '\''
      · rw [hquote]
        show untilQuote? ('\\' :: '\'' :: (text.flatMap escapeChar ++ '\'' :: following)) = _
        rw [untilQuote?, ih]
        rfl
      · have hplain : escapeChar c = [c] := if_neg (not_or.mpr ⟨hback, hquote⟩)
        rw [hplain, List.singleton_append, untilQuote?_cons hback hquote, ih]
        rfl

/-- **The literal of a text is read as the text**, up to its end, whatever stands behind it. -/
theorem singleQuoted?_stringLiteral (text : String) (following : List Char) :
    singleQuoted? ((stringLiteral text).toList ++ following) =
      some (text.toList, following) := by
  rw [toList_stringLiteral, List.cons_append, List.append_assoc]
  exact untilQuote?_escaped text.toList following

/-- Different texts have different literals. -/
theorem stringLiteral_injective : Function.Injective stringLiteral := by
  intro text other heq
  have htext := singleQuoted?_stringLiteral text []
  rw [heq, singleQuoted?_stringLiteral other []] at htext
  exact String.toList_inj.mp (Prod.mk.inj (Option.some.inj htext)).1.symm

/-! ## Literals of the compiler -/

/-- Escaped characters are the inside of a literal. -/
theorem inside_escaped (text : List Char) : Inside '\'' (text.flatMap escapeChar) := by
  induction text with
  | nil => exact .nil
  | cons c text ih =>
    rw [List.flatMap_cons, escapeChar]
    split
    · exact .escape c ih
    · rename_i hplain
      obtain ⟨hback, hquote⟩ := not_or.mp hplain
      exact .plain hback hquote ih

/-- The literal of a text as a literal of an expression. -/
def literalOf (text : String) : Literal := ⟨'\'', text.toList.flatMap escapeChar⟩

/-- The literal of a text is spelled as it is printed. -/
theorem text_literalOf (text : String) : (literalOf text).text = (stringLiteral text).toList :=
  (toList_stringLiteral text).symm

/-- **The compiler takes the whole literal of a text for a literal**, and nothing behind it. -/
theorem literal?_stringLiteral (text : String) (following : List Char) :
    literal? ((stringLiteral text).toList ++ following) = some (literalOf text, following) :=
  Expression.literal?_eq_some_iff.mpr
    ⟨⟨rfl, inside_escaped text.toList⟩, by rw [text_literalOf]⟩

end ViewCompiler.Php
