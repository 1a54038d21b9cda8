import ViewCompiler.Expression.Paren
import ViewCompiler.Template.Lexeme
import ViewCompiler.Text.Cut
import ViewCompiler.Text.Folding

/-!
# Reading directives

A directive is a keyword after an `@`. The opening ones and the boolean attributes take arguments
in parentheses; the alternative of a conditional and the closing ones take none and must not go on
as a word. The closing ones, the alternative and the later conditions may be written in any case.

Each reader gives what the directive says and the rest of the text.
-/

namespace ViewCompiler.Template

open Text (isBlank foldedWord? lower trim)
open Expression (isWordChar variableName? balance?)

/-! ## Loop heads -/

/-- Reads blanks, the word `as` in any case, and blanks. -/
def asWord? (cs : List Char) : Option (List Char) :=
  match cs with
  | [] => none
  | c :: _ =>
    if isBlank c then
      match foldedWord? ['a', 's'] (cs.dropWhile isBlank) with
      | some (_, d :: rest) => if isBlank d then some (rest.dropWhile isBlank) else none
      | _ => none
    else none

/-- Reads a key variable, an arrow, and the blanks around it. -/
def keyVariable? (cs : List Char) : Option (List Char × List Char) :=
  match variableName? cs with
  | some (name, rest) =>
    match rest.dropWhile isBlank with
    | '=' :: '>' :: rest => some (name, rest.dropWhile isBlank)
    | _ => none
  | none => none

/-- Reads the item variable, which nothing but blanks may follow. -/
def itemVariable? (cs : List Char) : Option (List Char) :=
  match variableName? cs with
  | some (name, rest) => if rest.all isBlank then some name else none
  | none => none

/-- Reads the variables of a loop from the end of its arguments: the key, if there is one, and the
item. -/
def loopVariables? (cs : List Char) : Option (Option (List Char) × List Char) :=
  match keyVariable? cs with
  | some (key, rest) =>
    match itemVariable? rest with
    | some item => some (some key, item)
    | none => none
  | none => (itemVariable? cs).map fun item => (none, item)

/-- Splits the arguments of a loop at the first `as` that variables follow; gives the collection
and the variables. The collection has at least one character. -/
def splitLoop? : List Char → Option (List Char × Option (List Char) × List Char)
  | [] => none
  | c :: cs =>
    match (asWord? cs).bind loopVariables? with
    | some found => some ([c], found)
    | none => (splitLoop? cs).map fun found => (c :: found.1, found.2)

/-- The head of a loop, from its arguments. -/
def loopHead? (arguments : List Char) : Option LoopHead :=
  (splitLoop? arguments).map fun (collection, key, item) =>
    ⟨String.ofList (trim collection), String.ofList item, key.map String.ofList⟩

/-! ## Directives with arguments -/

/-- The keywords of directives with arguments that have to be written in lower case. -/
def argumentKeywords : List String := ["if", "each", "has", "checked", "selected", "disabled"]

/-- Reads the keyword of a directive with arguments; gives it in lower case and the rest. -/
def argumentKeyword? (cs : List Char) : Option (List Char × List Char) :=
  (argumentKeywords.findSome? fun word =>
    (Text.mark? word cs).map fun rest => (word.toList, rest)).or
  ((foldedWord? "elseif".toList cs).map fun found => (lower found.1, found.2))

/-- What a directive says, by its keyword in lower case and its arguments. Any other keyword is a
boolean attribute. -/
def directive (keyword arguments : List Char) : Saying :=
  let expression := String.ofList arguments
  if keyword = "elseif".toList then .branch (some expression)
  else if keyword = "if".toList then .opening (.conditional expression)
  else if keyword = "each".toList then
    match loopHead? arguments with
    | some head => .opening (.loop head)
    | none => .text
  else if keyword = "has".toList then .opening (.existence expression)
  else .node (.flag (String.ofList keyword) expression)

/-- Reads a directive with arguments. If its parenthesis is never closed, the directive up to that
parenthesis is text; without arguments all of it is text. -/
def argumentDirective? (cs : List Char) : Option (Saying × List Char) := do
  let (keyword, rest) ← (Text.mark? "@" cs).bind argumentKeyword?
  let rest ← Text.mark? "(" (rest.dropWhile isBlank)
  match balance? none 1 rest with
  | none => return (.text, rest)
  | some close =>
    match trim (rest.take close) with
    | [] => return (.text, rest.drop (close + 1))
    | c :: cs => return (directive keyword (c :: cs), rest.drop (close + 1))

/-! ## Directives without arguments -/

/-- The text does not go on as a word. -/
def atWordEnd (cs : List Char) : Bool := (cs.head?.map isWordChar) != some true

/-- Reads a keyword in any case that ends with the word; gives it in lower case and the rest. -/
def plainKeyword? (word : String) (cs : List Char) : Option (List Char × List Char) :=
  match (Text.mark? "@" cs).bind (foldedWord? word.toList) with
  | some (found, rest) => if atWordEnd rest then some (lower found, rest) else none
  | none => none

/-- Reads the alternative of a conditional. -/
def alternative? (cs : List Char) : Option (Saying × List Char) :=
  (plainKeyword? "else" cs).map fun found => (.branch none, found.2)

/-- The closing directives and what they close. -/
def closers : List (String × Closing) :=
  [("endif", .conditional), ("endeach", .loop), ("endhas", .existence)]

/-- What the closing directive with a name in lower case closes. -/
def closingNamed (name : List Char) : Closing :=
  ((closers.find? (·.1.toList == name)).map (·.2)).getD (.unknown (String.ofList name))

/-- Reads a closing directive. -/
def closingDirective? (cs : List Char) : Option (Saying × List Char) :=
  (closers.findSome? fun closer => plainKeyword? closer.1 cs).map fun found =>
    (.closing (closingNamed found.1), found.2)

end ViewCompiler.Template
