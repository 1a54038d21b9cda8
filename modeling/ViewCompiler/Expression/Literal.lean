/-!
# Quoted literals

PHP string literals in single or double quotes, as they stand in an expression. Inside a literal a
backslash takes the next character with it, so an escaped quote does not close the literal. A quote
that is never closed opens no literal.
-/

namespace ViewCompiler.Expression

/-- A character that opens a literal. -/
def isQuote (c : Char) : Bool := c == '\'' || c == '"'

/-- Reads the inside of a literal up to its closing quote; gives the inside and what follows the
quote. -/
def closeQuote? (quote : Char) : List Char → Option (List Char × List Char)
  | [] => none
  | ['\\'] => none
  | '\\' :: c :: cs => (closeQuote? quote cs).map fun found => ('\\' :: c :: found.1, found.2)
  | c :: cs =>
    if c == quote then some ([], cs)
    else (closeQuote? quote cs).map fun found => (c :: found.1, found.2)

/-- A literal: its quote and what stands between the quotes, escapes as written. -/
structure Literal where
  quote : Char
  inside : List Char

/-- The literal as written. -/
def Literal.text (l : Literal) : List Char := l.quote :: (l.inside ++ [l.quote])

/-- Reads a closed literal at the start of the text; gives it and the rest. -/
def literal? : List Char → Option (Literal × List Char)
  | [] => none
  | c :: cs =>
    if isQuote c then (closeQuote? c cs).map fun found => (⟨c, found.1⟩, found.2)
    else none

/-- The inside of a literal, its closing quote and the rest make up the text. -/
theorem append_of_closeQuote? {quote : Char} {cs inside rest : List Char}
    (h : closeQuote? quote cs = some (inside, rest)) : inside ++ quote :: rest = cs := by
  fun_induction closeQuote? quote cs generalizing inside rest with
  | case1 => simp at h
  | case2 => simp at h
  | case3 c cs ih =>
    obtain ⟨_, h', heq⟩ := Option.map_eq_some_iff.mp h
    obtain ⟨rfl, rfl⟩ := Prod.mk.inj heq
    simp [ih h']
  | case4 c cs _ _ hc =>
    obtain ⟨rfl, rfl⟩ := Prod.mk.inj (Option.some.inj h)
    simp [beq_iff_eq.mp hc]
  | case5 c cs _ _ _ ih =>
    obtain ⟨_, h', heq⟩ := Option.map_eq_some_iff.mp h
    obtain ⟨rfl, rfl⟩ := Prod.mk.inj heq
    simp [ih h']

/-- A literal and the rest make up the text. -/
theorem append_of_literal? {cs : List Char} {l : Literal} {rest : List Char}
    (h : literal? cs = some (l, rest)) : l.text ++ rest = cs := by
  cases cs with
  | nil => simp [literal?] at h
  | cons c cs =>
    simp only [literal?] at h
    split at h
    · obtain ⟨_, h', heq⟩ := Option.map_eq_some_iff.mp h
      obtain ⟨rfl, rfl⟩ := Prod.mk.inj heq
      simpa [Literal.text] using append_of_closeQuote? h'
    · simp at h

end ViewCompiler.Expression
