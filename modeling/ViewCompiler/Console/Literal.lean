import ViewCompiler.Console.Colour

/-!
# Literals

The parameters of some tags are values that are written out: numbers, texts, bytes, names of
constants, and tuples, sets and tables of these. `isLiteral` tells whether a text writes out a
value, or several with commas between them. Blanks may stand between the parts, and where a
bracket is open also the ends of lines and comments. Where a value has to be compared with others,
in a set or as a key of a table, it must not be a set or a table itself. A character in a text may
be given by its name, and every name is taken to be that of a character.
-/

namespace ViewCompiler.Console

/-! ## Kinds -/

/-- What kind of value a literal is, as far as it matters for what may be done with it. -/
inductive LiteralKind where
  | real
  | imaginary
  /-- A real number with a sign. -/
  | signedReal
  /-- An imaginary number with a sign. -/
  | signedImaginary
  /-- Any other value that never changes. -/
  | fixed
  /-- A value that can change, or one that holds such a value. -/
  | changeable
deriving DecidableEq

/-- A number with a sign in front. -/
def LiteralKind.signed? : LiteralKind → Option LiteralKind
  | .real => some .signedReal
  | .imaginary => some .signedImaginary
  | _ => none

/-- The sum of a real and an imaginary number, which is the only sum that is a literal. -/
def LiteralKind.sum? : LiteralKind → LiteralKind → Option LiteralKind
  | .real, .imaginary | .signedReal, .imaginary => some .fixed
  | _, _ => none

/-- The kind of a tuple of values. -/
def tupleKind (kinds : List LiteralKind) : LiteralKind :=
  if kinds.contains .changeable then .changeable else .fixed

/-! ## Blanks -/

/-- Skips a comment up to the end of its line. -/
def skipComment (cs : List Char) : List Char := cs.dropWhile fun c => c != '\n' && c != '\r'

/-- Skips blanks; where a bracket is open, also ends of lines and comments. -/
def skipBlanks (nested : Bool) : List Char → List Char
  | [] => []
  | '\\' :: '\r' :: '\n' :: cs => skipBlanks nested cs
  | '\\' :: '\n' :: cs => skipBlanks nested cs
  | '\\' :: '\r' :: cs => skipBlanks nested cs
  | c :: cs =>
    if c == ' ' || c == '\t' || c == '\x0c' then skipBlanks nested cs
    else if nested && (c == '\n' || c == '\r') then skipBlanks nested cs
    else if nested && c == '#' then skipBlanks nested (skipComment cs)
    else c :: cs
termination_by cs => cs.length
decreasing_by
  all_goals simp only [List.length_cons]
  all_goals first
    | omega
    | exact Nat.lt_succ_of_le (List.dropWhile_suffix _).length_le

/-- Nothing but blanks, ends of lines and comments is left. -/
def isOver (cs : List Char) : Bool := (skipBlanks true cs).isEmpty

/-! ## Numbers -/

/-- Reads digits with single underscores between them. -/
def digits? (isDigit : Char → Bool) (cs : List Char) : Option (List Char × List Char) :=
  let taken := cs.takeWhile fun c => isDigit c || c == '_'
  if (taken.splitOn '_').any List.isEmpty then none
  else some (taken, cs.drop taken.length)

/-- Reads digits if the text starts with one; gives whether there were any. -/
def someDigits? (cs : List Char) : Option (Bool × List Char) :=
  match cs with
  | c :: _ => if c.isDigit then (digits? Char.isDigit cs).map fun found => (true, found.2)
    else some (false, cs)
  | [] => some (false, [])

/-- Reads an exponent, if there is one. -/
def exponent? (cs : List Char) : Option (Bool × List Char) :=
  match cs with
  | 'e' :: cs | 'E' :: cs =>
    let cs := match cs with
      | '+' :: cs | '-' :: cs => cs
      | cs => cs
    (digits? Char.isDigit cs).map fun found => (true, found.2)
  | cs => some (false, cs)

/-- A number ends here: no letter, digit or underscore follows. -/
def endsNumber (cs : List Char) : Bool :=
  match cs with
  | [] => true
  | c :: _ => !(c.isAlphanum || c == '_' || 0x80 ≤ c.toNat)

/-- Reads a decimal number. A whole number other than zero has no zero in front. -/
def decimal? (cs : List Char) : Option (LiteralKind × List Char) := do
  let (whole, rest) ← someDigits? cs
  let (fraction, rest) ←
    match rest with
    | '.' :: rest => do
      let (fraction, rest) ← someDigits? rest
      if whole || fraction then some (true, rest) else none
    | rest => if whole then some (false, rest) else none
  let (power, rest) ← exponent? rest
  match rest with
  | 'j' :: rest | 'J' :: rest => if endsNumber rest then some (.imaginary, rest) else none
  | rest =>
    let taken := Text.taken cs rest
    let zeros := taken.head? == some '0' && taken.any fun c => c.isDigit && c != '0'
    if !endsNumber rest || (zeros && !fraction && !power) then none else some (.real, rest)

/-- Reads the digits of a number in another base, after its mark. -/
def based? (isDigit : Char → Bool) (cs : List Char) : Option (LiteralKind × List Char) :=
  let cs := match cs with
    | '_' :: cs => cs
    | cs => cs
  match digits? isDigit cs with
  | some (_, rest) => if endsNumber rest then some (.real, rest) else none
  | none => none

/-- A hexadecimal digit. -/
def isHexDigit (c : Char) : Bool := c.isDigit || ('a' ≤ c && c ≤ 'f') || ('A' ≤ c && c ≤ 'F')

/-- Reads a number. -/
def number? (cs : List Char) : Option (LiteralKind × List Char) :=
  match cs with
  | '0' :: 'x' :: cs | '0' :: 'X' :: cs => based? isHexDigit cs
  | '0' :: 'o' :: cs | '0' :: 'O' :: cs => based? (fun c => '0' ≤ c && c ≤ '7') cs
  | '0' :: 'b' :: cs | '0' :: 'B' :: cs => based? (fun c => c == '0' || c == '1') cs
  | cs => decimal? cs

/-! ## Texts -/

/-- How a text is written. -/
structure Quotation where
  quote : Char
  /-- Three quotes stand on each side, and lines may end in the text. -/
  long : Bool
  /-- The text is of bytes. -/
  bytes : Bool
  /-- Backslashes stand for themselves. -/
  raw : Bool

/-- The number of hexadecimal digits that an escape needs. -/
def escapeDigits (quotation : Quotation) (c : Char) : Nat :=
  if quotation.raw then 0
  else if c == 'x' then 2
  else if c == 'u' && !quotation.bytes then 4
  else if c == 'U' && !quotation.bytes then 8
  else 0

/-- The text starts with a name in braces. -/
def startsWithName (cs : List Char) : Bool :=
  match cs with
  | '{' :: cs => (cs.takeWhile fun c => c.isAlphanum || c == ' ' || c == '-').length > 0 &&
      (cs.dropWhile fun c => c.isAlphanum || c == ' ' || c == '-').head? == some '}'
  | _ => false

/-- The character after a backslash, with what follows it, is an escape that can be read. -/
def isEscape (quotation : Quotation) (c : Char) (cs : List Char) : Bool :=
  let n := escapeDigits quotation c
  let digits := cs.take n
  digits.length == n && digits.all isHexDigit &&
    (n != 8 || (['0', '0', '1', '0'].isPrefixOf digits || ['0', '0', '0'].isPrefixOf digits)) &&
    (quotation.raw || quotation.bytes || c != 'N' || startsWithName cs)

/-- Reads the rest of a text behind its first quotes; gives what follows the last ones. -/
def closeText? (quotation : Quotation) : List Char → Option (List Char)
  | [] => none
  | '\\' :: c :: cs =>
    if isEscape quotation c cs && !(quotation.bytes && 0x80 ≤ c.toNat) then closeText? quotation cs
    else none
  | c :: cs =>
    if c == quotation.quote then
      if !quotation.long then some cs
      else if [c, c].isPrefixOf cs then some (cs.drop 2)
      else closeText? quotation cs
    else if !quotation.long && (c == '\n' || c == '\r') then none
    else if quotation.bytes && 0x80 ≤ c.toNat then none
    else closeText? quotation cs

/-- The letters in front of a text say whether it is of bytes and whether it is raw. -/
def textMark? (letters : List Char) : Option (Bool × Bool) :=
  match letters.map Char.toLower with
  | [] | ['u'] => some (false, false)
  | ['r'] => some (false, true)
  | ['b'] => some (true, false)
  | ['b', 'r'] | ['r', 'b'] => some (true, true)
  | _ => none

/-- Reads one text with the letters in front of it; gives whether it is of bytes. -/
def text? (cs : List Char) : Option (Bool × List Char) := do
  let letters := cs.takeWhile Char.isAlpha
  let (bytes, raw) ← textMark? letters
  let after := cs.drop letters.length
  let quote ← after.head?
  if quote != '"' && quote != '\'' then none
  else
    let long := [quote, quote, quote].isPrefixOf after
    let rest ← closeText? ⟨quote, long, bytes, raw⟩ (after.drop (if long then 3 else 1))
    some (bytes, rest)

/-- Reads texts that follow each other and are one; either all are of bytes or none. -/
def texts? : Nat → Bool → List Char → Option (Bool × List Char)
  | 0, _, _ => none
  | fuel + 1, nested, cs => do
    let (bytes, rest) ← text? cs
    match texts? fuel nested (skipBlanks nested rest) with
    | some (others, rest) => if others == bytes then some (bytes, rest) else none
    | none => some (bytes, rest)

/-! ## Values -/

/-- Reads the name of a constant, or an empty set. -/
def constant? (nested : Bool) (cs : List Char) : Option (LiteralKind × List Char) :=
  let isNameChar (c : Char) : Bool := c.isAlphanum || c == '_' || 0x80 ≤ c.toNat
  let name := String.ofList (cs.takeWhile isNameChar)
  let rest := cs.dropWhile isNameChar
  if ["None", "True", "False"].contains name then some (.fixed, rest)
  else if name == "set" then
    match skipBlanks nested rest with
    | '(' :: rest =>
      match skipBlanks true rest with
      | ')' :: rest => some (.changeable, rest)
      | _ => none
    | _ => none
  else none

/-- One of several values between commas; `keyed` if it is a key with a value after a colon. -/
structure Element where
  kind : LiteralKind
  keyed : Bool

/-- The kind of what braces enclose: either a table of keys with values or a set of values. -/
def bracesKind? (elements : List Element) : Option LiteralKind :=
  if elements.all (fun element => element.kind != .changeable) &&
      (elements.all (·.keyed) || elements.all (!·.keyed)) then some .changeable
  else none

/-- The kind of what parentheses enclose: one value, or a tuple if there is a comma. -/
def parensKind? (elements : List Element) (comma : Bool) : Option LiteralKind :=
  if elements.any (·.keyed) then none
  else
    match elements, comma with
    | [element], false => some element.kind
    | elements, _ => some (tupleKind (elements.map (·.kind)))

/-- Reads what every value starts with and only some values have more than: a number, texts, a
constant or a pair of brackets, where `elements` reads what is in brackets. -/
def atomWith? (elements : List Char → Option (List Element × Bool × List Char)) (nested : Bool)
    (cs : List Char) : Option (LiteralKind × List Char) :=
  match cs with
  | '.' :: '.' :: '.' :: rest => some (.fixed, rest)
  | '(' :: cs =>
    match skipBlanks true cs with
    | ')' :: rest => some (.fixed, rest)
    | cs =>
      match elements cs with
      | some (elements, comma, ')' :: rest) => (parensKind? elements comma).map (·, rest)
      | _ => none
  | '{' :: cs =>
    match skipBlanks true cs with
    | '}' :: rest => some (.changeable, rest)
    | cs =>
      match elements cs with
      | some (elements, _, '}' :: rest) => (bracesKind? elements).map (·, rest)
      | _ => none
  | cs =>
    match number? cs, texts? (cs.length + 1) nested cs with
    | some found, _ => some found
    | none, some (_, rest) => some (.fixed, rest)
    | none, none => constant? nested cs

/-- Reads a value, with its sign or as the sum of two numbers, where `atom` reads what has neither;
gives it with the rest after the blanks that follow it. -/
def valueWith? (atom : List Char → Option (LiteralKind × List Char)) (nested : Bool)
    (cs : List Char) : Option (LiteralKind × List Char) := do
  let (kind, rest) ←
    match cs with
    | '+' :: cs | '-' :: cs => do
      let (kind, rest) ← atom (skipBlanks nested cs)
      some (← kind.signed?, rest)
    | cs => atom cs
  match skipBlanks nested rest with
  | '+' :: rest | '-' :: rest => do
    let (other, rest) ← atom (skipBlanks nested rest)
    some (← kind.sum? other, skipBlanks nested rest)
  | rest => some (kind, rest)

/-- Reads values between commas, of which one may also stand at the end; gives whether there is a
comma. -/
def elements? : Nat → Bool → List Char → Option (List Element × Bool × List Char)
  | 0, _, _ => none
  | fuel + 1, nested, cs => do
    let value := valueWith? (atomWith? (elements? fuel true) nested) nested
    let (kind, rest) ← value cs
    let (element, rest) ←
      match rest with
      | ':' :: rest => do
        let (_, rest) ← value (skipBlanks nested rest)
        some (Element.mk kind true, rest)
      | rest => some (Element.mk kind false, rest)
    match rest with
    | ',' :: rest =>
      let rest := skipBlanks nested rest
      if [')', '}'].contains (rest.headD ')') || (!nested && isOver rest) then
        some ([element], true, rest)
      else do
        let (elements, _, rest) ← elements? fuel nested rest
        some (element :: elements, true, rest)
    | rest => some ([element], false, rest)

/-- The text writes out a value, or several with commas between them. -/
def isLiteral (text : List Char) : Bool :=
  match elements? (text.length + 1) false (skipBlanks false text) with
  | some (elements, _, rest) => elements.all (!·.keyed) && isOver rest && !text.contains '\x00'
  | none => false

end ViewCompiler.Console
