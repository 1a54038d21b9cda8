/-!
# Blanks

The white space of template text and its removal at the ends of a text. The set is the one of
Unicode's bidirectional classes for white space and separators, so it is wider than core's
`Char.isWhitespace`: besides the ASCII blanks it holds the four separator controls, the next-line
control, the no-break space and the spaces of the general punctuation block. The zero-width space
and the byte order mark are not blanks.
-/

namespace ViewCompiler.Text

/-! ## The class -/

/-- White space: the characters that trimming removes and that separate the words of a tag. -/
def isBlank (c : Char) : Bool :=
  let n := c.toNat
  (9 ≤ n && n ≤ 13) || (28 ≤ n && n ≤ 32) || n == 0x85 || n == 0xA0 || n == 0x1680 ||
    (0x2000 ≤ n && n ≤ 0x200A) || n == 0x2028 || n == 0x2029 || n == 0x202F || n == 0x205F ||
    n == 0x3000

/-! ## Trimming -/

/-- The text without its leading blanks. -/
def trimStart (cs : List Char) : List Char := cs.dropWhile isBlank

/-- The text without its trailing blanks. -/
def trimEnd (cs : List Char) : List Char := (cs.reverse.dropWhile isBlank).reverse

/-- The text without the blanks at both ends. -/
def trim (cs : List Char) : List Char := trimEnd (trimStart cs)

end ViewCompiler.Text

namespace ViewCompiler

/-- The string without its leading blanks. -/
def trimBlanksStart (s : String) : String := String.ofList (Text.trimStart s.toList)

/-- The string without its trailing blanks. -/
def trimBlanksEnd (s : String) : String := String.ofList (Text.trimEnd s.toList)

/-- The string without the blanks at both ends. -/
def trimBlanks (s : String) : String := String.ofList (Text.trim s.toList)

end ViewCompiler
