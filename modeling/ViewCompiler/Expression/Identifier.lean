/-!
# Identifiers and variables

The names of PHP variables. A name starts with an ASCII letter or an underscore and goes on with
those and the digits; every character outside ASCII counts as a letter, since PHP accepts every
byte from `0x80` on.
-/

namespace ViewCompiler.Expression

/-! ## Classes of characters -/

/-- An ASCII letter, digit or underscore. -/
def isWordChar (c : Char) : Bool := c.isAlphanum || c == '_'

/-- A character that can start an identifier. -/
def isIdentifierStart (c : Char) : Bool := c.isAlpha || c == '_' || 0x80 ≤ c.toNat

/-- A character of an identifier. -/
def isIdentifierChar (c : Char) : Bool := isWordChar c || 0x80 ≤ c.toNat

/-! ## Readers -/

/-- Reads the longest identifier at the start of the text; gives it and the rest. -/
def identifier? : List Char → Option (List Char × List Char)
  | [] => none
  | c :: cs =>
    if isIdentifierStart c then
      some (c :: cs.takeWhile isIdentifierChar, cs.dropWhile isIdentifierChar)
    else none

/-- Reads a variable, `$` and an identifier; gives the name without the sigil and the rest. -/
def variableName? : List Char → Option (List Char × List Char)
  | '$' :: cs => identifier? cs
  | _ => none

/-- The identifier read and the rest make up the text. -/
theorem append_of_identifier? {cs name rest : List Char}
    (h : identifier? cs = some (name, rest)) : name ++ rest = cs := by
  cases cs with
  | nil => simp [identifier?] at h
  | cons c cs =>
    simp only [identifier?] at h
    split at h
    · obtain ⟨rfl, rfl⟩ := Prod.mk.inj (Option.some.inj h)
      simp
    · simp at h

/-- The sigil, the name read and the rest make up the text. -/
theorem append_of_variableName? {cs name rest : List Char}
    (h : variableName? cs = some (name, rest)) : '$' :: (name ++ rest) = cs := by
  unfold variableName? at h
  split at h
  · rw [append_of_identifier? h]
  · simp at h

end ViewCompiler.Expression
