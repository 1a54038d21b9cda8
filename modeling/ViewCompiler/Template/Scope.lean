import ViewCompiler.Expression.Variables
import ViewCompiler.Template.Access
import ViewCompiler.Template.Parse

/-!
# Variables of a tree

Which variables a tree reads that it does not assign itself. The variables of a loop are bound in
its body and nowhere else, although a loop leaves them assigned: a later use of the same name is
free. A loop's local variables may read the loop's variables and are themselves bound in the body.

From the free variables follow the names that a whole template declares for its data and the names
that a closure over a slot captures.
-/

namespace ViewCompiler.Template

open Expression (mentioned)

/-! ## Free variables -/

/-- The variables of an expression that are not bound, in order. -/
def unbound (bound : List String) (expression : String) : List String :=
  (mentioned expression).filter (· ∉ bound)

mutual

/-- The unbound variables of a node, in order, with repetitions. -/
def Node.reads (bound : List String) : Node → List String
  | .echo expression _ => unbound bound expression
  | .host code _ => unbound bound code
  | .conditional branches => branchesRead bound branches
  | .loop head bindings body =>
    let inner := head.names ++ bound
    unbound bound head.collection ++ bindings.flatMap (unbound inner ·.value) ++
      reads (bindings.map (·.name) ++ inner) body
  | .existence expression body => unbound bound expression ++ reads bound body
  | .flag _ expression => unbound bound expression
  | .component _ attributes content slots =>
    (attributes.filterMap Attribute.expression?).flatMap (unbound bound) ++ reads bound content ++
      slotsRead bound slots
  | .text _ => []
  | .comment _ => []

/-- The unbound variables of nodes, in order, with repetitions. -/
def reads (bound : List String) : List Node → List String
  | [] => []
  | node :: nodes => node.reads bound ++ reads bound nodes

/-- The unbound variables of branches, in order, with repetitions. -/
def branchesRead (bound : List String) : List Branch → List String
  | [] => []
  | ⟨condition, body⟩ :: branches =>
    condition.toList.flatMap (unbound bound) ++ reads bound body ++ branchesRead bound branches

/-- The unbound variables of named slots, in order, with repetitions. -/
def slotsRead (bound : List String) : List NamedSlot → List String
  | [] => []
  | ⟨_, body⟩ :: slots => reads bound body ++ slotsRead bound slots
end

/-- The order of names: by the code points of their characters. -/
def nameLe (a b : String) : Bool := !decide (b < a)

/-- Names in order, each once. -/
def sorted (names : List String) : List String := names.eraseDups.mergeSort nameLe

/-- The free variables of a tree, in order, each once; `bound` are bound around it. -/
def freeVariables (nodes : List Node) (bound : List String) : List String :=
  sorted (reads bound nodes)

/-! ## Declared and captured names -/

/-- The parameter that holds the data of a template. -/
def dataName : String := "__data"

/-- The variable that holds the content of the default slot. -/
def slotName : String := "slot"

/-- The variables that are the same in every scope and that no closure may capture. -/
def superglobals : List String :=
  ["GLOBALS", "_SERVER", "_GET", "_POST", "_COOKIE", "_FILES", "_ENV", "_REQUEST", "_SESSION"]

/-- The variables that no closure may capture. -/
def uncapturable : List String := "this" :: superglobals

/-- The name is one of those that generated code keeps for itself. -/
def isInternal (name : String) : Bool := "__".toList.isPrefixOf name.toList

/-- The name is one that a template takes from its data. -/
def isDeclarable (name : String) : Bool :=
  name != slotName && name != dataName && !isInternal name && !uncapturable.contains name

/-- The names among these that a template takes from its data, in order. -/
def declarable (names : List String) : List String :=
  (names.filter isDeclarable).mergeSort nameLe

/-- The names that a closure over the tree captures, in order; `bound` are bound around it. -/
def captured (nodes : List Node) (bound : List String) : List String :=
  (freeVariables nodes bound).filter (!uncapturable.contains ·)

/-- The free variables of a fragment of a template. -/
def usedVariables (fragment : String) : Except ParseError (List String) := do
  return freeVariables (← parse fragment) []

/-- The names that a whole template takes from its data. -/
def declaredVariables (template : String) : Except ParseError (List String) := do
  return declarable (← usedVariables template)

end ViewCompiler.Template
