import ViewCompiler.Console.Colour
import ViewCompiler.Text.Blank

/-!
# Styles

A style is a line of words: attributes that are switched on, or off after `not`, a colour, a
background after `on`, and the target of a link after `link`. `normalStyle` gives one spelling to
all lines of words that say the same, so that styles can be compared by their text; words that are
no style stand for themselves, in lower case.
-/

namespace ViewCompiler.Console

/-! ## Attributes -/

/-- The attributes, in the order in which they are written. -/
def attributeNames : List String :=
  ["bold", "dim", "italic", "underline", "blink", "blink2", "reverse", "conceal", "strike",
    "underline2", "frame", "encircle", "overline"]

/-- The short names of attributes. -/
def attributeLetters : List (String × String) :=
  [("b", "bold"), ("d", "dim"), ("i", "italic"), ("u", "underline"), ("r", "reverse"),
    ("c", "conceal"), ("s", "strike"), ("uu", "underline2"), ("o", "overline")]

/-- The attribute that a word names. -/
def attribute? (word : String) : Option String :=
  (attributeLetters.lookup word).or (attributeNames.find? (· == word))

/-! ## Styles -/

/-- What a line of words says. -/
structure Style where
  /-- The attributes that are switched on or off, the last word about each first. -/
  attributes : List (String × Bool) := []
  colour : Option String := none
  background : Option String := none
  link : Option String := none

/-- Switches an attribute. -/
def Style.switch (name : String) (state : Bool) (style : Style) : Style :=
  { style with attributes := (name, state) :: style.attributes }

/-- The words of a style, in one order and one spelling. -/
def Style.words (style : Style) : List String :=
  let attributes := attributeNames.filterMap fun name =>
    (style.attributes.lookup name).map fun state => if state then name else "not " ++ name
  let background := (style.background.map fun colour => ["on", colour]).getD []
  let link := (style.link.map fun target => ["link", target]).getD []
  attributes ++ style.colour.toList ++ background ++ link

/-! ## Reading -/

/-- Why words are no style. -/
inductive StyleFault where
  /-- A word means nothing where it stands, or one is missing. -/
  | unknown
  /-- A part of a colour has no digits. -/
  | brokenColour
deriving DecidableEq

/-- The colour that a word names, in lower case. -/
def readColour (word : String) : Except StyleFault String :=
  match colourWord word.toLower with
  | .colour => return word.toLower
  | .other => throw .unknown
  | .broken => throw .brokenColour

/-- Reads the words of a style into what was read before them. -/
def readWords : List String → Style → Except StyleFault Style
  | [], style => return style
  | word :: words, style =>
    match word.toLower, words with
    | "on", colour :: words => do readWords words { style with background := ← readColour colour }
    | "not", name :: words =>
      match attribute? name with
      | some name => readWords words (style.switch name false)
      | none => throw .unknown
    | "link", target :: words => readWords words { style with link := target }
    | "on", [] | "not", [] | "link", [] => throw .unknown
    | word, words =>
      match attribute? word with
      | some name => readWords words (style.switch name true)
      | none => do readWords words { style with colour := ← readColour word }

/-- Reads a style. -/
def readStyle (text : String) : Except StyleFault Style :=
  let words := (text.toList.splitOnP Text.isBlank).filter (· != [])
  readWords (words.map String.ofList) {}

/-- The one spelling of all texts that say the same as this one. -/
def normalStyle (text : String) : Except StyleFault String :=
  match readStyle text with
  | .ok style => return " ".intercalate style.words
  | .error .unknown => return (trimBlanks text).toLower
  | .error .brokenColour => throw .brokenColour

end ViewCompiler.Console
