import ViewCompiler.Expression.Access
import ViewCompiler.Text.Cut

/-!
# Accessor calls in an expression

The calls that `callAccesses` writes, found again in an expression. Only that one spelling counts:
one blank after the comma, single quotes, and a path of letters, digits, underscores and dots. What
stands before the function's name is not looked at.
-/

namespace ViewCompiler.Expression

open Text (mark? append_of_mark?)

/-- A character of the path in an accessor call. -/
def isPathChar (c : Char) : Bool := isWordChar c || c == '.'

/-- Reads a path in single quotes and the parenthesis that ends the call. -/
def callPath? (cs : List Char) : Option (List Char × List Char) :=
  match cs.takeWhile isPathChar, mark? "')" (cs.dropWhile isPathChar) with
  | c :: path, some rest => some (c :: path, rest)
  | _, _ => none

/-- Reads an accessor call. -/
def accessor? (cs : List Char) : Option (DottedPath × List Char) := do
  let cs ← mark? (accessorFunction ++ "(") cs
  let (name, cs) ← variableName? cs
  let cs ← mark? ", '" cs
  let (path, cs) ← callPath? cs
  return (⟨name, path⟩, cs)

/-- The path of a call, its end and the rest make up the text. -/
theorem append_of_callPath? {cs path rest : List Char} (h : callPath? cs = some (path, rest)) :
    path ++ ("')".toList ++ rest) = cs := by
  unfold callPath? at h
  split at h
  · rename_i c path' rest' hpath hrest
    obtain ⟨rfl, rfl⟩ := Prod.mk.inj (Option.some.inj h)
    rw [append_of_mark? hrest, ← hpath, List.takeWhile_append_dropWhile]
  · simp at h

/-- An accessor call and the rest make up the text. -/
theorem append_of_accessor? {cs : List Char} {a : DottedPath} {rest : List Char}
    (h : accessor? cs = some (a, rest)) : a.call ++ rest = cs := by
  obtain ⟨cs₁, h₁, h⟩ := Option.bind_eq_some_iff.mp h
  obtain ⟨⟨name, cs₂⟩, h₂, h⟩ := Option.bind_eq_some_iff.mp h
  obtain ⟨cs₃, h₃, h⟩ := Option.bind_eq_some_iff.mp h
  obtain ⟨⟨path, cs₄⟩, h₄, h⟩ := Option.bind_eq_some_iff.mp h
  obtain ⟨rfl, rfl⟩ := Prod.mk.inj (Option.some.inj h)
  rw [← append_of_mark? h₁, ← append_of_variableName? h₂, ← append_of_mark? h₃,
    ← append_of_callPath? h₄]
  simp [DottedPath.call, accessorCall]

/-- Accessor calls as phrases. -/
def accessor : Phrase DottedPath where
  read? _ := accessor?
  write := DottedPath.call
  append_of_read? := append_of_accessor?
  write_ne_nil a := by simp [DottedPath.call, accessorCall, accessorFunction]

end ViewCompiler.Expression
