import ViewCompiler.Expression.Identifier
import ViewCompiler.Expression.Paren
import ViewCompiler.Text.DecimalDigit

/-!
# Atomic expressions

An expression is atomic when it can be an operand without parentheses: a variable with a chain of
properties, one literal, a number, a word, or one call whose argument list spans the rest. A line
feed at the very end is allowed after all of these but the call.
-/

namespace ViewCompiler.Expression

open Text (isDecimalDigit)

/-! ## Readers -/

/-- Reads the longest chain of property accesses by arrow; gives the rest. -/
def properties : List Char → List Char
  | '-' :: '>' :: cs =>
    match _h : identifier? cs with
    | some (_, rest) => properties rest
    | none => '-' :: '>' :: cs
  | cs => cs
termination_by cs => cs.length
decreasing_by
  have := append_of_identifier? (by assumption)
  simp only [← this, List.length_cons, List.length_append]
  omega

/-- Reads a variable and its chain of properties; gives the rest. -/
def chain? (cs : List Char) : Option (List Char) := (variableName? cs).map fun found =>
  properties found.2

/-- Reads a number: an optional minus, digits, and a fraction if a point and a digit follow; gives
the rest. -/
def number? (cs : List Char) : Option (List Char) :=
  let cs := if cs.head? = some '-' then cs.tail else cs
  match cs.takeWhile isDecimalDigit, cs.dropWhile isDecimalDigit with
  | [], _ => none
  | _ :: _, '.' :: c :: rest =>
    if isDecimalDigit c then some (rest.dropWhile isDecimalDigit) else some ('.' :: c :: rest)
  | _ :: _, rest => some rest

/-- Reads a word, an ASCII letter or underscore and word characters; gives the rest. -/
def word? : List Char → Option (List Char)
  | [] => none
  | c :: cs => if c.isAlpha || c == '_' then some (cs.dropWhile isWordChar) else none

/-- Reads the name of a function, possibly qualified by a namespace, or of a class's method; gives
the rest. -/
def functionName? (cs : List Char) : Option (List Char) :=
  let cs := if cs.head? = some '\\' then cs.tail else cs
  match cs with
  | [] => none
  | c :: cs =>
    if c.isAlpha || c == '_' then
      match cs.dropWhile fun d => isWordChar d || d == '\\' with
      | ':' :: ':' :: rest =>
        match identifier? rest with
        | some (_, rest) => some rest
        | none => some (':' :: ':' :: rest)
      | rest => some rest
    else none

/-! ## The test -/

/-- The text ends here, but for one line feed. -/
def atEnd (cs : List Char) : Bool := cs == [] || cs == ['\n']

/-- The text is a variable chain, a literal, a number or a word, up to a final line feed. -/
def isSimple (cs : List Char) : Bool :=
  (chain? cs).any atEnd || (literal? cs).any (atEnd ·.2) || (number? cs).any atEnd ||
    (word? cs).any atEnd

/-- The text is a callee followed by one argument list that ends with the text. -/
def isCall (cs : List Char) : Bool :=
  match (functionName? cs).or (chain? cs) with
  | some ('(' :: rest) =>
    closingParen? cs (cs.length - (rest.length + 1)) == some (cs.length - 1)
  | _ => false

/-- The expression can be an operand without parentheses. -/
def isAtomic (expression : String) : Bool :=
  isSimple expression.toList || isCall expression.toList

end ViewCompiler.Expression
