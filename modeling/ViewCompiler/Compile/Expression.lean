import ViewCompiler.Compile.ClassName
import ViewCompiler.Compile.Context
import ViewCompiler.Php.Syntax
import ViewCompiler.Template.Slot

/-!
# Trees as expressions

The expression that a node yields, and the expression that a flat tree yields: the concatenation of
its parts. A component's expression needs the values of its slots, which are compiled by a function
that is given.
-/

namespace ViewCompiler.Compile

open Template Php

/-- How the content of a slot is compiled. -/
abbrev SlotCompiler := List Node → Emit SlotCode

/-! ## Components -/

/-- The value of an attribute as a prop. A bound attribute without an expression is null. -/
def propValue (a : Attribute) : PropValue :=
  match a.value with
  | none => .flag
  | some value =>
    if a.bound then
      let expression := trimBlanks value
      .expression (if expression = "" then "null" else expression)
    else .literal value

/-- The props of a component. -/
def props (attributes : List Attribute) : List ComponentProp :=
  attributes.map fun a => ⟨a.name, propValue a⟩

/-- The named slots of a component, one after the other. -/
def slotArguments (slot : SlotCompiler) (slots : List NamedSlot) : Emit (List SlotArgument) :=
  slots.mapM fun s => return ⟨s.name, ← slot s.body⟩

/-- The default slot of a component, if there is anything in it but blanks. -/
def contentCode (slot : SlotCompiler) (content : List Node) : Emit (Option SlotCode) :=
  match trimSlot content with
  | [] => return none
  | node :: nodes => return some (← slot (node :: nodes))

/-- The rendering of a component. Named slots are compiled before the default slot. -/
def component (slot : SlotCompiler) (path tag : String) (attributes : List Attribute)
    (content : List Node) (slots : List NamedSlot) : Emit Expr := do
  let named ← slotArguments slot slots
  let value ← contentCode slot content
  return .component (className tag path) (props attributes) named value

/-! ## Interpolations -/

/-- Embedded code as an expression: without blanks and semicolons at its end. -/
def hostExpression (code : String) : String :=
  let trimmed := (trimBlanksEnd code).toList.reverse.dropWhile (· == ';')
  trimBlanksEnd (String.ofList trimmed.reverse)

/-- The expression that an echo yields. What is not known to be a string is an operand. -/
def echoExpression (expression : String) (escaped : Bool) : Expr :=
  if Node.isSlotEcho expression then .slotString
  else if escaped then .escaped expression
  else .operand expression

/-- The expression that a node yields. -/
def interpolation (slot : SlotCompiler) (path : String) : Node → Emit Expr
  | .text content => return .literal content
  | .echo expression escaped => return echoExpression expression escaped
  | .component tag attributes content slots => component slot path tag attributes content slots
  | .host code true => return .operand (hostExpression code)
  | node => throw (.notInterpolation (kind node))

/-- The expression for parts: one part as a string, several concatenated. -/
def joinParts : List Expr → Expr
  | [.operand code] => .asString code
  | [value] => value
  | parts => .concat parts

/-- The expression that a flat tree yields. -/
def expression (slot : SlotCompiler) (path : String) (nodes : List Node) : Emit Expr := do
  return joinParts (← (content nodes).mapM (interpolation slot path))

/-! ## Loops -/

/-- The mapping over the elements of a loop with a flat body. -/
def loopMap (slot : SlotCompiler) (path : String) (candidate : MapCandidate) : Emit LoopMap := do
  let value ← expression slot path candidate.body
  let bound := candidate.head.names ++ candidate.bindings.map (·.name)
  return {
    before := candidate.before
    head := candidate.head
    uses := captured candidate.body bound
    locals := candidate.bindings
    value := value
    after := candidate.after }

end ViewCompiler.Compile
