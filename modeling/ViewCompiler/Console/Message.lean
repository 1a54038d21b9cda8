import ViewCompiler.Console.Literal
import ViewCompiler.Console.Style

/-!
# Messages

A message is a text with tags in square brackets. A tag opens a style, and a tag with a slash
closes the innermost style of its name, or the innermost of all without a name. A tag whose name
starts with an at sign opens an action, and its parameters are read when it is closed. A backslash
before a tag makes it text, and two are a backslash. `shown` gives what a message shows; a message
with a tag that closes nothing, or with parameters that cannot be read, shows nothing.

The language of messages is that of the library that the command line prints with, and with the
colours, styles and literals that it needs it is spelled out here for one reason: a place whose
name makes a broken message ends a command. No theorem is about it, and compiling and building do
not depend on it.
-/

namespace ViewCompiler.Console

open Text

/-! ## Tags -/

/-- A part of a message. -/
inductive Piece where
  | char (c : Char)
  | opening (name : List Char) (parameters : Option (List Char))
  /-- A tag that closes the innermost style of a name, which may be empty. -/
  | closing (name : List Char)

/-- A character that the inside of a tag can start with. -/
def isTagStart (c : Char) : Bool := ('a' ≤ c && c ≤ 'z') || c == '#' || c == '/' || c == '@'

/-- Reads the inside of a tag and its closing bracket. No other bracket opens inside. -/
def tagInside? : List Char → Option (List Char × List Char)
  | [] => none
  | c :: cs =>
    if isTagStart c then (cut? (· == '[') [']'] cs).map fun found => (c :: found.1, found.2)
    else none

/-- The tag with an inside: its name, and its parameters after an equals sign. -/
def Piece.ofInside (inside : List Char) : Piece :=
  let (name, parameters) :=
    match cutAt? ['='] inside with
    | some (name, parameters) => (name, some parameters)
    | none => (inside, none)
  match name with
  | '/' :: name => .closing (trim name)
  | name => .opening name parameters

/-- Reads a tag with the backslashes in front of it. Of two backslashes one is kept, and one alone
makes the tag text. -/
def tagPieces? (cs : List Char) : Option (List Piece × List Char) :=
  let strokes := cs.takeWhile (· == '\\')
  match cs.dropWhile (· == '\\') with
  | '[' :: after =>
    (tagInside? after).map fun (inside, rest) =>
      let kept := List.replicate (strokes.length / 2) (Piece.char '\\')
      if strokes.length % 2 = 1 then (kept ++ ('[' :: inside ++ [']']).map .char, rest)
      else (kept ++ [.ofInside inside], rest)
  | _ => none

/-- What is after a tag's inside is a shorter end of the text. -/
theorem shorter_of_tagInside? {cs inside rest : List Char}
    (h : tagInside? cs = some (inside, rest)) : Shorter rest cs := by
  match cs with
  | [] => simp [tagInside?] at h
  | c :: cs =>
    simp only [tagInside?] at h
    split at h
    · obtain ⟨⟨before, after⟩, hcut, heq⟩ := Option.map_eq_some_iff.mp h
      obtain ⟨-, rfl⟩ := Prod.mk.inj heq
      have hsuffix := suffix_of_cut? hcut
      exact ⟨hsuffix.trans (List.suffix_cons c cs), Nat.lt_succ_of_le hsuffix.length_le⟩
    · simp at h

/-- What is after a tag is a shorter end of the text. -/
theorem shorter_of_tagPieces? {cs rest : List Char} {pieces : List Piece}
    (h : tagPieces? cs = some (pieces, rest)) : Shorter rest cs := by
  unfold tagPieces? at h
  split at h
  · rename_i after hafter
    obtain ⟨⟨inside, rest'⟩, hinside, heq⟩ := Option.map_eq_some_iff.mp h
    obtain rfl : rest' = rest := by
      simp only at heq
      split at heq <;> exact (Prod.mk.inj heq).2
    have hsuffix : '[' :: after <:+ cs := hafter ▸ List.dropWhile_suffix _
    exact .of_suffix (shorter_of_tagInside? hinside).1
      ⟨(List.suffix_cons _ _).trans hsuffix, hsuffix.length_le⟩
  · simp at h

/-- The parts of a message. A backslash before a bracket that opens no tag is left out. -/
def piecesOf : List Char → List Piece
  | [] => []
  | c :: cs =>
    match _h : tagPieces? (c :: cs) with
    | some (found, rest) => found ++ piecesOf rest
    | none => if c == '\\' && cs.head? == some '[' then piecesOf cs else .char c :: piecesOf cs
termination_by cs => cs.length
decreasing_by
  · exact (shorter_of_tagPieces? (by assumption)).2
  all_goals simp

/-! ## Showing -/

/-- A tag that is not closed yet, with the normal form of its name. -/
structure OpenTag where
  name : String
  parameters : Option String
deriving DecidableEq

/-- Why a message cannot be shown. -/
inductive MessageError where
  /-- No tag with the name is open. -/
  | notOpen (name : String)
  /-- No tag is open. -/
  | nothingOpen
  /-- The parameters of an action are no values. -/
  | notLiteral (parameters : String)
  /-- A colour has a part without digits. -/
  | brokenColour (style : String)
deriving DecidableEq

/-- What is said about a message that cannot be shown. -/
def MessageError.message : MessageError → String
  | .notOpen name => "No tag '" ++ name ++ "' is open"
  | .nothingOpen => "No tag is open"
  | .notLiteral parameters => "The parameters '" ++ parameters ++ "' cannot be read"
  | .brokenColour style => "The style '" ++ style ++ "' cannot be read"

/-- The normal form of a style's name. -/
def styleName (name : String) : Except MessageError String :=
  match normalStyle name with
  | .ok name => return name
  | .error _ => throw (.brokenColour name)

/-- What a tag says about its style. -/
def OpenTag.style (tag : OpenTag) : String :=
  match tag.parameters with
  | some parameters => tag.name ++ " " ++ parameters
  | none => tag.name

/-- Fails if the style of a tag cannot be looked up. -/
def OpenTag.checkStyle (tag : OpenTag) : Except MessageError Unit := do
  let _ ← styleName tag.style

/-- The part of an action's parameters that is read as values: the arguments after the name of a
handler, nothing if there is only a name, and everything if there is no such name. Every character
outside ASCII counts as one of a name. -/
def actionArguments (parameters : List Char) : List Char :=
  match parameters.dropWhile fun c =>
      c.isAlphanum || c == '_' || c == '.' || 0x80 ≤ c.toNat with
  | [] => ['(', ')']
  | '(' :: cs =>
    if cs.getLast? == some ')' && !cs.contains '\n' then '(' :: cs else parameters
  | _ => parameters

/-- Fails if the parameters of a tag cannot be read, now that it is closed. -/
def OpenTag.checkClosed (tag : OpenTag) : Except MessageError Unit :=
  if tag.name.toList.head? == some '@' then
    match tag.parameters with
    | none | some "" => return
    | some parameters =>
      if isLiteral (actionArguments (trim parameters.toList)) then return
      else throw (.notLiteral parameters)
  else tag.checkStyle

/-- Closes the innermost tag of a name, or the innermost of all; gives it and those left open. -/
def closeTag (name : List Char) (tags : List OpenTag) :
    Except MessageError (OpenTag × List OpenTag) := do
  if name.isEmpty then
    match tags with
    | tag :: tags => return (tag, tags)
    | [] => throw .nothingOpen
  else
    let name ← styleName (String.ofList name)
    match tags.find? (·.name == name) with
    | some tag => return (tag, tags.erase tag)
    | none => throw (.notOpen name)

/-- What the rest of a message shows, where tags are open, the innermost first. -/
def shownFrom : List OpenTag → List Piece → Except MessageError (List Char)
  | tags, [] => do
    tags.forM OpenTag.checkStyle
    return []
  | tags, .char c :: pieces => return c :: (← shownFrom tags pieces)
  | tags, .opening name parameters :: pieces => do
    let name ← styleName (String.ofList name)
    shownFrom (⟨name, parameters.map String.ofList⟩ :: tags) pieces
  | tags, .closing name :: pieces => do
    let (tag, tags) ← closeTag name tags
    tag.checkClosed
    shownFrom tags pieces

/-- What a message shows. -/
def shown (message : String) : Except MessageError String := do
  return String.ofList (← shownFrom [] (piecesOf message.toList))

end ViewCompiler.Console
