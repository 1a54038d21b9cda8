import ViewCompiler.Template.Visible

/-!
# The form of a unit

How the body of a unit is written: as one expression without a prologue, as an array mapping over
the elements of a single loop, as one concatenation, or as tags between calls that buffer the
output. The cheapest form that prints what buffering prints is chosen.
-/

namespace ViewCompiler.Template

/-- The forms of a unit's body. -/
inductive Strategy where
  /-- A single interpolation that reads no data. -/
  | direct
  /-- One loop with a flat body, and text at most around it. -/
  | mapping
  /-- Text and interpolations only. -/
  | concatenation
  /-- Everything else. -/
  | buffered
deriving DecidableEq

/-- The name of a strategy. -/
def Strategy.name : Strategy → String
  | direct => "direct_expression"
  | mapping => "loop_to_map"
  | concatenation => "string_concat"
  | buffered => "buffered"

/-- What is logged when a unit is compiled. -/
def Strategy.message (strategy : Strategy) : String :=
  "Compiling template with " ++ strategy.name ++ " strategy"

/-- A loop with a flat body, and the text before and after it. -/
structure MapCandidate where
  before : Option String
  head : LoopHead
  bindings : List Binding
  body : List Node
  after : Option String

/-- Text alone, or nothing. -/
def soleText? : List Node → Option (Option String)
  | [] => some none
  | [.text content] => some (some content)
  | _ => none

/-- The nodes before the first loop, the loop, and the nodes after it. -/
def splitAtLoop? :
    List Node → Option (List Node × (LoopHead × List Binding × List Node) × List Node)
  | [] => none
  | .loop head bindings body :: after => some ([], (head, bindings, body), after)
  | node :: nodes => (splitAtLoop? nodes).map fun found => (node :: found.1, found.2)

/-- The parts of a tree that is one loop with text at most around it, comments aside, if the body
of the loop is flat and has an interpolation. The tree is taken as it is printed. -/
def mapCandidate? (nodes : List Node) : Option MapCandidate := do
  let (before, (head, bindings, body), after) ← splitAtLoop? (content nodes)
  let before ← soleText? before
  let after ← soleText? after
  if isFlat body && body.any Node.isInterpolation then
    return ⟨before, head, bindings, body, after⟩
  else none

/-- The tree is one interpolation, comments aside. -/
def isInterpolationAlone (nodes : List Node) : Bool :=
  match content nodes with
  | [node] => node.isInterpolation
  | _ => false

/-- The form of a unit for a tree whose free variables are `free` and that has local variables
`bindings` ahead of it. -/
def strategy (nodes : List Node) (free : List String) (bindings : List Binding) : Strategy :=
  let printed := visible false nodes
  if free.isEmpty && bindings.isEmpty && isInterpolationAlone printed then .direct
  else if (mapCandidate? printed).isSome then .mapping
  else if isFlat printed then .concatenation
  else .buffered

end ViewCompiler.Template
