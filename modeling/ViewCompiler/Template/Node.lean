import ViewCompiler.Template.Attribute

/-!
# Template trees

What a template consists of: literal text, comments, interpolations, embedded host code, directives
with bodies, boolean attributes, and components with slots. Expressions are kept as text, since the
compiler never parses them.

Bodies are lists of nodes. A function on trees is defined by mutual recursion with its function on
lists of nodes, of branches and of named slots.
-/

namespace ViewCompiler.Template

/-! ## Types -/

/-- A local variable, named without its sigil, and the expression it is given. -/
structure Binding where
  name : String
  value : String
deriving DecidableEq

/-- What a loop runs over and the variables it assigns for each element, named without sigil. -/
structure LoopHead where
  collection : String
  item : String
  key : Option String
deriving DecidableEq

/-- The variables that a loop assigns. -/
def LoopHead.names (head : LoopHead) : List String := head.key.toList ++ [head.item]

mutual

/-- A node of a template tree. -/
inductive Node where
  /-- Literal text. -/
  | text (content : String)
  /-- A comment, which prints nothing. -/
  | comment (content : String)
  /-- An expression whose value is printed, through the escaping function or as it is. -/
  | echo (expression : String) (escaped : Bool)
  /-- Embedded host code: statements, or an expression whose value is printed. -/
  | host (code : String) (echo : Bool)
  /-- The branches of a conditional, in order. -/
  | conditional (branches : List Branch)
  /-- A loop, the local variables of one iteration, and its body. -/
  | loop (head : LoopHead) (bindings : List Binding) (body : List Node)
  /-- A body for when an expression is not empty. -/
  | existence (expression : String) (body : List Node)
  /-- An attribute that is printed when an expression is true. -/
  | flag (kind : String) (expression : String)
  /-- A component, the content of its default slot, and its named slots. -/
  | component (tag : String) (attributes : List Attribute) (content : List Node)
      (slots : List NamedSlot)

/-- A branch of a conditional; the condition is missing where the branch is the alternative to all
others. -/
structure Branch where
  condition : Option String
  body : List Node

/-- A named slot of a component and its content. -/
structure NamedSlot where
  name : String
  body : List Node
end

instance : Inhabited Node := ⟨.text ""⟩

/-! ## Kinds of nodes -/

namespace Node

/-- An echo that prints the content of the default slot. -/
def isSlotEcho (expression : String) : Bool := trimBlanks expression == "$slot"

/-- The node yields one value and has no control flow. -/
def isInterpolation : Node → Bool
  | echo .. | component .. | host _ true => true
  | _ => false

/-- The node decides what is printed, or runs host statements. -/
def isControlFlow : Node → Bool
  | conditional _ | loop .. | existence .. | flag .. | host _ false => true
  | _ => false

/-- The node is literal text. -/
def isText : Node → Bool
  | text _ => true
  | _ => false

/-- The node is a comment. -/
def isComment : Node → Bool
  | comment _ => true
  | _ => false

end Node

/-- What a flag prints: its kind after a blank. -/
def flagText (kind : String) : String := " " ++ kind

/-- The nodes that contribute output: all but the comments. -/
def content (nodes : List Node) : List Node := nodes.filter (!·.isComment)

end ViewCompiler.Template
