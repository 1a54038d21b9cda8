import ViewCompiler.Text.Cut
import ViewCompiler.Text.DecimalDigit

/-!
# Colours

The words that name a colour of the console: the names of the palette, a number of the palette, six
hexadecimal digits, or three decimal parts. A number is at most 255. A colour whose three parts are
not all there is not just another word but broken, and no style can be read beside it.
-/

namespace ViewCompiler.Console

open Text (digitZeros isDecimalDigit)

/-! ## Names -/

/-- The names of the palette: each name with each of the numbers beside it, and the one name that
stands for no colour of the palette. -/
def colourFamilies : List (List String × List String) :=
  [([""], ["default", "black", "blue_violet", "bright_black", "bright_blue", "bright_cyan",
      "bright_green", "bright_magenta", "bright_red", "bright_white", "bright_yellow",
      "cadet_blue", "cornflower_blue", "dark_blue", "dark_cyan", "dark_goldenrod", "dark_green",
      "dark_khaki", "dark_magenta", "dark_red", "dark_turquoise", "dark_violet", "green_yellow",
      "light_coral", "light_green", "light_sea_green", "light_slate_blue", "light_slate_gray",
      "light_slate_grey", "medium_spring_green", "medium_turquoise", "medium_violet_red",
      "navy_blue", "rosy_brown", "sandy_brown", "tan", "violet", "white"]),
    (["1"], ["cornsilk", "orange_red", "pale_violet_red", "royal_blue", "salmon"]),
    (["2"], ["honeydew"]),
    (["3"], ["light_yellow"]),
    (["", "1"], ["indian_red"]),
    (["", "3"], ["dark_orange"]),
    (["1", "3"], ["aquamarine", "gold", "khaki", "light_cyan", "light_salmon", "light_sky_blue",
      "misty_rose", "navajo_white", "pale_green", "pink", "slate_blue", "thistle"]),
    (["1", "4"], ["pale_turquoise", "wheat"]),
    (["2", "4"], ["turquoise"]),
    (["", "1", "2"], ["orchid"]),
    (["", "1", "3"], ["blue", "light_steel_blue", "medium_orchid", "red", "steel_blue"]),
    (["", "2", "3"], ["hot_pink"]),
    (["", "3", "4"], ["purple"]),
    (["1", "2", "3"], ["dark_olive_green", "dark_slate_gray", "dodger_blue", "light_goldenrod",
      "sea_green", "sky_blue"]),
    (["1", "3", "4"], ["light_pink", "orange"]),
    (["", "1", "2", "3"], ["cyan", "magenta"]),
    (["", "1", "3", "4"], ["green"]),
    (["1", "2", "3", "4"], ["chartreuse", "deep_pink", "deep_sky_blue", "plum", "spring_green"]),
    (["", "1", "2", "3", "4"], ["dark_sea_green", "medium_purple", "yellow"]),
    (["0", "3", "7", "11", "15", "19", "23", "27", "30", "35", "37", "39", "42", "46", "50", "53",
      "54", "58", "62", "63", "66", "69", "70", "74", "78", "82", "84", "85", "89", "93", "100"],
      ["gray", "grey"])]

/-- The word is a name of the palette. -/
def isColourName (word : String) : Bool :=
  colourFamilies.any fun (numbers, names) =>
    names.any fun name => numbers.any fun number => word == name ++ number

/-! ## Numbers -/

/-- The value of a decimal digit of any script. -/
def digitValue (c : Char) : Nat :=
  match digitZeros.find? fun start => start ≤ c.toNat && c.toNat ≤ start + 9 with
  | some start => c.toNat - start
  | none => 0

/-- The number that decimal digits make. -/
def decimalValue (digits : List Char) : Nat :=
  digits.foldl (fun value c => 10 * value + digitValue c) 0

/-- The digits make a number of the palette: one to three ASCII digits. -/
def isPaletteNumber (digits : List Char) : Bool :=
  !digits.isEmpty && digits.length ≤ 3 && digits.all Char.isDigit && decimalValue digits ≤ 255

/-- The digits are six hexadecimal digits. -/
def isHexColour (digits : List Char) : Bool :=
  digits.length == 6 && digits.all fun c => c.isDigit || ('a' ≤ c && c ≤ 'f')

/-! ## Words -/

/-- What a word is among the colours. -/
inductive ColourWord where
  | colour
  | other
  /-- One of three parts has no digits. -/
  | broken
deriving DecidableEq

/-- What three parts are among the colours. -/
def ofParts (parts : List (List Char)) : ColourWord :=
  if parts.length ≠ 3 then .other
  else if parts.any List.isEmpty then .broken
  else if parts.all fun digits => decimalValue digits ≤ 255 then .colour
  else .other

/-- What is between a word in front with an opening parenthesis and a closing one at the end. -/
def argument? (front : String) (word : List Char) : Option (List Char) :=
  (Text.mark? (front ++ "(") word).bind fun rest =>
    if rest.getLast? = some ')' then some rest.dropLast else none

/-- What a word is among the colours. -/
def colourWord (word : String) : ColourWord :=
  if isColourName word then .colour
  else
    match word.toList with
    | '#' :: digits => if isHexColour digits then .colour else .other
    | cs =>
      match argument? "color" cs, argument? "rgb" cs with
      | some digits, _ => if isPaletteNumber digits then .colour else .other
      | none, some inside =>
        if !inside.isEmpty && inside.all fun c => isDecimalDigit c || c == ',' then
          ofParts (inside.splitOn ',')
        else .other
      | none, none => .other

end ViewCompiler.Console
