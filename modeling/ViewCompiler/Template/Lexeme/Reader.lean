import ViewCompiler.Template.Lexeme.Directive

/-!
# Reading lexemes

`saying?` reads what stands at the start of a text, if it is a lexeme. The kinds of lexemes are
tried in a fixed order, and a kind that does not fit to its end gives way to the next one: a
comment that is never closed may still be an echo.
-/

namespace ViewCompiler.Template

open Text (isBlank mark? cutAt? cutInLine? trim)

/-! ## Interpolations, comments and host code -/

/-- An echo of a trimmed expression; without one it is text. -/
def echo (inside : List Char) (escaped : Bool) : Saying :=
  match trim inside with
  | [] => .text
  | c :: cs => .node (.echo (String.ofList (c :: cs)) escaped)

/-- Reads a comment. -/
def comment? (cs : List Char) : Option (Saying × List Char) := do
  let (inside, rest) ← (mark? "\x7b\x7b--" cs).bind (cutAt? "--\x7d\x7d".toList)
  return (.node (.comment (String.ofList (trim inside))), rest)

/-- Reads an echo that is not escaped. It ends on its line. -/
def rawEcho? (cs : List Char) : Option (Saying × List Char) := do
  let (inside, rest) ←
    (mark? "\x7b\x7b\x7b" cs).bind (cutInLine? "\x7d\x7d\x7d".toList)
  return (echo inside false, rest)

/-- Reads an echo that is escaped. It ends on its line. -/
def escapedEcho? (cs : List Char) : Option (Saying × List Char) := do
  let (inside, rest) ← (mark? "\x7b\x7b" cs).bind (cutInLine? "\x7d\x7d".toList)
  return (echo inside true, rest)

/-- Reads what opens host code; gives whether its value is printed, and the rest. -/
def hostOpening? (cs : List Char) : Option (Bool × List Char) :=
  match mark? "<?php" cs with
  | some (c :: rest) => if isBlank c then some (false, c :: rest) else none
  | some [] => none
  | none => (mark? "<?=" cs).map fun rest => (true, rest)

/-- Reads host code. -/
def host? (cs : List Char) : Option (Saying × List Char) := do
  let (printed, rest) ← hostOpening? cs
  let (code, rest) ← cutAt? "?>".toList rest
  return (.node (.host (String.ofList (trim code)) printed), rest)

/-! ## Tags -/

/-- A character of a component's tag after the first. -/
def isTagChar (c : Char) : Bool := c.isAlphanum || c == '.' || c == '-'

/-- A character of a slot's name. -/
def isSlotNameChar (c : Char) : Bool := Expression.isWordChar c || c == '-'

/-- Reads blanks and the end of a tag. -/
def tagEnd? (cs : List Char) : Option (List Char) := mark? ">" (cs.dropWhile isBlank)

/-- Reads the name of a component. -/
def tagName? : List Char → Option (List Char × List Char)
  | [] => none
  | c :: cs =>
    if c.isAlphanum then some (c :: cs.takeWhile isTagChar, cs.dropWhile isTagChar) else none

/-- Reads the attributes of a tag up to its end, quoted values as a whole; gives them as written,
whether the tag closes itself, and the rest. A `<` or a quote that is never closed is no part of a
tag. -/
def tagBody? : List Char → Option (List Char × Bool × List Char)
  | [] => none
  | '/' :: '>' :: cs => some ([], true, cs)
  | '>' :: cs => some ([], false, cs)
  | c :: cs =>
    if c == '<' then none
    else if Expression.isQuote c then
      match _h : cutAt? [c] cs with
      | some (value, rest) =>
        (tagBody? rest).map fun found => (c :: (value ++ c :: found.1), found.2)
      | none => none
    else (tagBody? cs).map fun found => (c :: found.1, found.2)
termination_by cs => cs.length
decreasing_by
  · have := (Text.suffix_of_cut? (by assumption)).length_le
    simp only [List.length_cons]
    omega
  · simp

/-- Reads the name of a component in its opening tag, which a blank, a slash or an angle ends. -/
def openingName? (cs : List Char) : Option (List Char × List Char) :=
  match tagName? cs with
  | some (name, c :: rest) =>
    if isBlank c || c == '/' || c == '>' then some (name, c :: rest) else none
  | _ => none

/-- Reads a component's opening tag, or a component that closes itself. The tag of a slot without a
name is text. -/
def openingTag? (cs : List Char) : Option (Saying × List Char) := do
  let (name, rest) ← (mark? "<x-" cs).bind openingName?
  let (source, closed, rest) ← tagBody? rest
  let tag := String.ofList name
  let attributes := attributes (String.ofList (trim source))
  if tag = "slot" then return (.text, rest)
  else if closed then return (.node (.component tag attributes [] []), rest)
  else return (.opening (.component tag attributes), rest)

/-- Reads a component's closing tag. -/
def closingTag? (cs : List Char) : Option (Saying × List Char) := do
  let (tag, rest) ← (mark? "</x-" cs).bind tagName?
  let rest ← tagEnd? rest
  return (.tagClosing (String.ofList tag), rest)

/-- Reads the opening tag of a named slot. -/
def slotOpening? (cs : List Char) : Option (Saying × List Char) := do
  let rest ← mark? "<x-slot:" cs
  match rest.takeWhile isSlotNameChar with
  | [] => none
  | c :: name =>
    let rest ← tagEnd? (rest.dropWhile isSlotNameChar)
    return (.slotOpening (String.ofList (c :: name)), rest)

/-- Reads the closing tag of a named slot. -/
def slotClosing? (cs : List Char) : Option (Saying × List Char) := do
  let rest ← (mark? "</x-slot" cs).bind tagEnd?
  return (.slotClosing, rest)

/-! ## One lexeme -/

/-- Reads the lexeme at the start of the text; gives what it says and the rest. -/
def saying? (cs : List Char) : Option (Saying × List Char) :=
  comment? cs |>.or <| rawEcho? cs |>.or <| escapedEcho? cs |>.or <| host? cs |>.or <|
    argumentDirective? cs |>.or <| alternative? cs |>.or <| closingDirective? cs |>.or <|
    slotOpening? cs |>.or <| slotClosing? cs |>.or <| openingTag? cs |>.or <| closingTag? cs

end ViewCompiler.Template
