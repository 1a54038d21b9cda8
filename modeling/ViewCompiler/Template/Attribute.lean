import ViewCompiler.Expression.Identifier
import ViewCompiler.Keyed
import ViewCompiler.Text.Blank
import ViewCompiler.Text.Cut

/-!
# Attributes of a component tag

An attribute has a name, a marker `:` before the name when its value is an expression of the host
language, and a quoted value unless it is a flag. The text of a tag is searched for attributes from
left to right and whatever is none is skipped; of two attributes with one name the later one wins
and keeps the place of the earlier.
-/

namespace ViewCompiler.Template

open Text (isBlank)
open Expression (isWordChar)

/-! ## Attributes -/

/-- One attribute. A bound attribute and one that is not bound are different even if they share the
name. -/
structure Attribute where
  bound : Bool
  name : String
  value : Option String
deriving DecidableEq

/-- The name as written, with the marker of a bound attribute. -/
def Attribute.spelling (a : Attribute) : String := if a.bound then ":" ++ a.name else a.name

/-- The expression of a bound attribute that has a value. -/
def Attribute.expression? (a : Attribute) : Option String := if a.bound then a.value else none

/-- The attribute with another value in place of its expression, if it has one. -/
def Attribute.mapExpression (f : String → String) (a : Attribute) : Attribute :=
  if a.bound then { a with value := a.value.map f } else a

/-! ## Reading -/

/-- A character of an attribute's name after the first. -/
def isNameChar (c : Char) : Bool := isWordChar c || c == '.' || c == ':' || c == '-'

/-- Reads a name; gives whether it has the marker, the name without the marker, and the rest. -/
def attributeName? (cs : List Char) : Option (Bool × List Char × List Char) :=
  match cs with
  | ':' :: c :: rest =>
    if isWordChar c then
      some (true, c :: rest.takeWhile isNameChar, rest.dropWhile isNameChar)
    else none
  | c :: rest =>
    if isWordChar c then
      some (false, c :: rest.takeWhile isNameChar, rest.dropWhile isNameChar)
    else none
  | [] => none

/-- Reads a quoted value; gives what is between the quotes and the rest. No escapes. -/
def quotedValue? : List Char → Option (List Char × List Char)
  | '"' :: cs => Text.cutAt? ['"'] cs
  | '\'' :: cs => Text.cutAt? ['\''] cs
  | _ => none

/-- Reads an equals sign with blanks around it and a quoted value. -/
def assignedValue? (cs : List Char) : Option (List Char × List Char) :=
  match cs.dropWhile isBlank with
  | '=' :: rest => quotedValue? (rest.dropWhile isBlank)
  | _ => none

/-- Reads one attribute; a name that no quoted value follows is a flag. -/
def attribute? (cs : List Char) : Option (Attribute × List Char) :=
  (attributeName? cs).map fun (bound, name, rest) =>
    match assignedValue? rest with
    | some (value, rest) => (⟨bound, String.ofList name, some (String.ofList value)⟩, rest)
    | none => (⟨bound, String.ofList name, none⟩, rest)

/-- The text after a name is shorter. -/
theorem length_lt_of_attributeName? {cs : List Char} {bound : Bool} {name rest : List Char}
    (h : attributeName? cs = some (bound, name, rest)) : rest.length < cs.length := by
  have key : ∀ l : List Char, (l.dropWhile isNameChar).length ≤ l.length := fun l =>
    (List.dropWhile_suffix isNameChar).length_le
  unfold attributeName? at h
  split at h
  · split at h
    · obtain ⟨-, -, rfl⟩ := by simpa using h
      have := key ‹_›
      simp only [List.length_cons]
      omega
    · simp at h
  · split at h
    · obtain ⟨-, -, rfl⟩ := by simpa using h
      exact Nat.lt_succ_of_le (key _)
    · simp at h
  · simp at h

/-- The text after a quoted value is shorter. -/
theorem length_le_of_quotedValue? {cs value rest : List Char}
    (h : quotedValue? cs = some (value, rest)) : rest.length ≤ cs.length := by
  unfold quotedValue? at h
  split at h
  · rw [← Text.append_of_cut? h]
    simp only [List.length_append, List.length_cons]
    omega
  · rw [← Text.append_of_cut? h]
    simp only [List.length_append, List.length_cons]
    omega
  · simp at h

/-- The text after an assigned value is no longer. -/
theorem length_le_of_assignedValue? {cs value rest : List Char}
    (h : assignedValue? cs = some (value, rest)) : rest.length ≤ cs.length := by
  have key : ∀ l : List Char, (l.dropWhile isBlank).length ≤ l.length := fun l =>
    (List.dropWhile_suffix isBlank).length_le
  unfold assignedValue? at h
  split at h
  · rename_i rest' heq
    have h₁ := length_le_of_quotedValue? h
    have h₂ := key rest'
    have h₃ := key cs
    rw [heq, List.length_cons] at h₃
    omega
  · simp at h

/-- The text after an attribute is shorter. -/
theorem length_lt_of_attribute? {cs : List Char} {a : Attribute} {rest : List Char}
    (h : attribute? cs = some (a, rest)) : rest.length < cs.length := by
  obtain ⟨⟨bound, name, rest'⟩, h', heq⟩ := Option.map_eq_some_iff.mp h
  have h₁ := length_lt_of_attributeName? h'
  simp only at heq
  split at heq
  · rename_i h''
    obtain ⟨-, rfl⟩ := Prod.mk.inj heq
    exact Nat.lt_of_le_of_lt (length_le_of_assignedValue? h'') h₁
  · obtain ⟨-, rfl⟩ := Prod.mk.inj heq
    exact h₁

/-- All attributes found in a text, in order, repetitions included. -/
def attributesIn : List Char → List Attribute
  | [] => []
  | c :: cs =>
    match _h : attribute? (c :: cs) with
    | some (a, rest) => a :: attributesIn rest
    | none => attributesIn cs
termination_by cs => cs.length
decreasing_by
  · exact length_lt_of_attribute? (by assumption)
  · simp

/-- The attributes of a tag. -/
def attributes (source : String) : List Attribute :=
  collectBy (fun a => (a.bound, a.name)) (attributesIn source.toList)

end ViewCompiler.Template
