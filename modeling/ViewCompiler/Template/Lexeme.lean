import ViewCompiler.Template.Node

/-!
# Lexemes of a template

A template is a sequence of lexemes. Which lexeme stands at a place depends on the text alone; what
it becomes in the tree depends on the constructs that are open there. Every lexeme keeps the text
it was read from, because a lexeme that fits nowhere is printed as it was written.
-/

namespace ViewCompiler.Template

/-- A construct that a lexeme opens and that stays open until its closing lexeme. -/
inductive Opening where
  /-- A conditional, with the condition of its first branch. -/
  | conditional (condition : String)
  | loop (head : LoopHead)
  | existence (expression : String)
  | component (tag : String) (attributes : List Attribute)

/-- A directive that closes a construct. -/
inductive Closing where
  | conditional
  | loop
  | existence
  /-- A name that is a closing directive up to case but, in lower case, the name of none. -/
  | unknown (name : String)

/-- What a lexeme says. -/
inductive Saying where
  /-- Literal text. -/
  | text
  /-- A whole node. -/
  | node (node : Node)
  /-- The start of a construct. -/
  | opening (construct : Opening)
  /-- The next branch of a conditional. -/
  | branch (condition : Option String)
  /-- The end of a construct. -/
  | closing (construct : Closing)
  /-- The start of a named slot. -/
  | slotOpening (name : String)
  /-- The end of a named slot. -/
  | slotClosing
  /-- The end of a component. -/
  | tagClosing (tag : String)

/-- A lexeme: what it says and how it was written. -/
structure Lexeme where
  saying : Saying
  raw : String

end ViewCompiler.Template
