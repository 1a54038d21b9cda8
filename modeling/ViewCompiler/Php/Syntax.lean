import ViewCompiler.Template.Node

/-!
# The code that is written

The PHP that the compiler writes, as trees. There are only the few shapes of code that a template
can become: expressions that yield a string, statements that append to an output variable, and
markup, which is text between tags. Expressions of the template are kept as text in all of them.

Closures occur in three places: as the value of a slot, as the function that a loop is mapped with,
and as the unit itself.
-/

namespace ViewCompiler.Php

open Template (Binding LoopHead)

/-! ## Values of props -/

/-- The value of a prop of a component. -/
inductive PropValue where
  /-- A flag: true. -/
  | flag
  /-- An expression as written. -/
  | expression (code : String)
  /-- A string. -/
  | literal (content : String)

/-- A prop of a component: its name and its value. -/
structure ComponentProp where
  name : String
  value : PropValue

/-! ## Expressions, slots, statements and markup -/

mutual

/-- An expression. -/
inductive Expr where
  /-- A string. -/
  | literal (content : String)
  /-- An expression of the template as written. -/
  | code (code : String)
  /-- An expression of the template as an operand. -/
  | operand (code : String)
  /-- An expression of the template as a string. -/
  | asString (code : String)
  /-- An expression of the template as a string that is safe in markup. -/
  | escaped (code : String)
  /-- The content of the default slot. -/
  | slotValue
  /-- The content of the default slot as a string. -/
  | slotString
  /-- The concatenation of expressions. -/
  | concat (parts : List Expr)
  /-- The rendering of a component, with the values of its named slots and of its default slot. -/
  | component (className : String) (props : List ComponentProp) (slots : List SlotArgument)
      (content : Option SlotCode)

/-- The value of a slot. -/
inductive SlotCode where
  /-- A string. -/
  | literal (content : String)
  /-- A closure with one expression. -/
  | expression (value : Expr)
  /-- A closure that appends to an output variable, with the names it captures and the local
  variables ahead of its body. -/
  | statements (uses : List String) (locals : List Binding) (body : List Stmt)
  /-- A closure that buffers its output. -/
  | buffered (uses : List String) (locals : List Binding) (body : List Markup)

/-- A named slot and its value. -/
structure SlotArgument where
  name : String
  value : SlotCode

/-- A statement that may append to the output variable. -/
inductive Stmt where
  | comment (content : String)
  /-- Host statements as written. -/
  | host (code : String)
  /-- Appends the value of an expression. -/
  | append (value : Expr)
  | conditional (branches : List StmtBranch)
  | loop (head : LoopHead) (locals : List Binding) (body : List Stmt)
  | existence (expression : String) (body : List Stmt)
  /-- Appends a boolean attribute if an expression is true. -/
  | flag (kind : String) (expression : String)

/-- A branch of statements. -/
structure StmtBranch where
  condition : Option String
  body : List Stmt

/-- A part of markup. -/
inductive Markup where
  /-- Text, printed as it stands. -/
  | text (content : String)
  | comment (content : String)
  /-- Host statements as written. -/
  | host (code : String)
  /-- Prints the value of an expression. -/
  | echo (value : Expr)
  | conditional (branches : List MarkupBranch)
  | loop (head : LoopHead) (locals : List Binding) (body : List Markup)
  | existence (expression : String) (body : List Markup)
  /-- Prints a boolean attribute if an expression is true. -/
  | flag (kind : String) (expression : String)

/-- A branch of markup. -/
structure MarkupBranch where
  condition : Option String
  body : List Markup
end

/-- The names that the value of a slot captures. -/
def SlotCode.uses : SlotCode → List String
  | .statements uses .. => uses
  | .buffered uses .. => uses
  | _ => []

/-! ## Units -/

/-- A loop whose elements are mapped to strings: the text before it, its head, the names that the
mapping function captures, the local variables of one element, its value, and the text after it. -/
structure LoopMap where
  before : Option String
  head : LoopHead
  uses : List String
  locals : List Binding
  value : Expr
  after : Option String

/-- The body of a unit. -/
inductive UnitBody where
  /-- One expression. -/
  | value (value : Expr)
  /-- A mapping over the elements of a loop. -/
  | mapping (map : LoopMap)
  /-- Markup whose output is buffered. -/
  | buffered (body : List Markup)

/-- A compiled template: a closure that renders it. -/
structure RenderUnit where
  /-- Whether the closure takes the data of the template. -/
  takesData : Bool
  /-- The names taken from the data. -/
  declared : List String
  /-- The local variables ahead of the body. -/
  locals : List Binding
  body : UnitBody

end ViewCompiler.Php
