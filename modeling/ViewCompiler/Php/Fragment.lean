import ViewCompiler.Expression.Atomic
import ViewCompiler.Text.Blank

/-!
# Fragments of PHP text

How the small parts of PHP source are spelled: literals, operands, casts, tags, headers. The
printer of units is built from them. Nothing here knows about templates.
-/

namespace ViewCompiler.Php

open Expression (isAtomic)

/-! ## Literals and comments -/

/-- A character inside a single-quoted literal; a backslash and a quote are escaped. -/
def escapeChar (c : Char) : List Char :=
  if c = '\\' ∨ c = '\'' then ['\\', c] else [c]

/-- The single-quoted literal of a text. -/
def stringLiteral (s : String) : String :=
  "'" ++ String.ofList (s.toList.flatMap escapeChar) ++ "'"

/-- Text inside a comment; what would end the comment is broken up by a backslash. -/
def commentText : List Char → List Char
  | [] => []
  | '*' :: '/' :: cs => '*' :: '\\' :: '/' :: commentText cs
  | c :: cs => c :: commentText cs

/-- A block comment. -/
def comment (s : String) : String := "/* " ++ String.ofList (commentText s.toList) ++ " */"

/-! ## Operands -/

/-- The expression as an operand, in parentheses unless it is atomic. -/
def operand (expression : String) : String :=
  if isAtomic expression then expression else "(" ++ expression ++ ")"

/-- The value of an expression as a string. -/
def asString (expression : String) : String := "(string) " ++ operand expression

/-- The value of an expression as a string that is safe in markup. -/
def escapeCall (expression : String) : String :=
  "htmlspecialchars(" ++ asString expression ++ ", ENT_QUOTES, 'UTF-8')"

/-- The concatenation of expressions; of none, the empty string. -/
def concat (parts : List String) : String :=
  if parts.isEmpty then "''" else " . ".intercalate parts

/-! ## Slots -/

/-- The content of a slot: the value of the closure that the variable holds, or the variable. -/
def slotValue (sigiled : String) : String :=
  sigiled ++ " instanceof \\Closure ? " ++ sigiled ++ "() : " ++ sigiled

/-- The content of a slot as a string. -/
def slotString (sigiled : String) : String :=
  "(" ++ sigiled ++ " instanceof \\Closure ? " ++ sigiled ++ "() : (string) " ++ sigiled ++ ")"

/-! ## Tags -/

/-- A tag that runs code. -/
def codeTag (code : String) : String := "<?php " ++ code ++ " ?>"

/-- A tag that prints the value of an expression. -/
def echoTag (expression : String) : String := "<?= " ++ expression ++ " ?>"

/-! ## Variables and headers -/

/-- A variable by its name. -/
def sigiled (name : String) : String := "$" ++ name

/-- The clause that lists the captured names of a closure; none if there are none. -/
def useClause (names : List String) : String :=
  if names.isEmpty then "" else " use (" ++ ", ".intercalate (names.map sigiled) ++ ")"

/-- Parameters of one type. -/
def parameters (names : List String) (type : String) : String :=
  ", ".intercalate (names.map fun name => type ++ " " ++ sigiled name)

/-- An arrow function with a string result. -/
def arrowFunction (body params : String) : String :=
  "static fn(" ++ params ++ "): string => " ++ body

/-- The first line of a closure with a string result. -/
def functionHeader (params : String) (uses : List String) : String :=
  "static function (" ++ params ++ ")" ++ useClause uses ++ ": string \x7b"

/-- The header of a branch, by its place among the branches. -/
def branchHeader (index : Nat) : Option String → String
  | none => "else"
  | some condition => (if index = 0 then "if (" else "elseif (") ++ condition ++ ")"

/-- The header of a loop; a key without a name is no key. -/
def loopHeader (collection item : String) (key : Option String) : String :=
  let target :=
    match key with
    | some name => if name = "" then sigiled item else sigiled name ++ " => " ++ sigiled item
    | none => sigiled item
  "foreach (" ++ collection ++ " as " ++ target ++ ")"

/-- The test that an expression is not empty. -/
def existenceTest (expression : String) : String := "!empty(" ++ expression ++ ")"

/-- The header of a body for when an expression is not empty. -/
def existenceHeader (expression : String) : String := "if (" ++ existenceTest expression ++ ")"

/-! ## Statements and calls -/

/-- An array with string keys. -/
def arrayLiteral (items : List (String × String)) : String :=
  "[" ++ ", ".intercalate (items.map fun item => stringLiteral item.1 ++ " => " ++ item.2) ++ "]"

/-- The assignment of an expression to a variable. -/
def assignment (name expression : String) : String := sigiled name ++ " = " ++ expression ++ ";"

/-- The assignment of a variable's entry in a container, or of null without one. -/
def dataBinding (name container : String) : String :=
  assignment name (container ++ "[" ++ stringLiteral name ++ "] ?? null")

/-- Code that can stand on a line of its own: it ends with a semicolon, a brace or a colon. -/
def statement (code : String) : String :=
  let code := trimBlanksEnd code
  match code.toList.getLast? with
  | none => code
  | some c => if [';', '\x7b', '\x7d', ':'].contains c then code else code ++ ";"

/-- A call with named arguments. -/
def namedCall (function : String) (arguments : List (String × String)) : String :=
  function ++ "(" ++ ", ".intercalate (arguments.map fun a => a.1 ++ ": " ++ a.2) ++ ")"

end ViewCompiler.Php
