import ViewCompiler.Expression.Access
import ViewCompiler.Template.Node

/-!
# Dotted data access across a tree

`callAccesses` changes the dotted accesses in every expression of a tree, those in the slots of
components included. Text, comments, embedded host code and static attributes stay as written, and
so does the shape of the tree. The local variables of loops are left alone: what they are given has
its calls already.
-/

namespace ViewCompiler.Template

open Expression (callAccesses)

mutual

/-- A node with the accesses in its expressions as calls. -/
def Node.withCalls : Node → Node
  | .echo expression escaped => .echo (callAccesses expression) escaped
  | .conditional branches => .conditional (branchesWithCalls branches)
  | .loop head bindings body =>
    .loop { head with collection := callAccesses head.collection } bindings (withCalls body)
  | .existence expression body => .existence (callAccesses expression) (withCalls body)
  | .flag kind expression => .flag kind (callAccesses expression)
  | .component tag attributes content slots =>
    .component tag (attributes.map (·.mapExpression callAccesses)) (withCalls content)
      (slotsWithCalls slots)
  | .text content => .text content
  | .comment content => .comment content
  | .host code echo => .host code echo

/-- Nodes with the accesses in their expressions as calls. -/
def withCalls : List Node → List Node
  | [] => []
  | node :: nodes => node.withCalls :: withCalls nodes

/-- Branches with the accesses in their conditions and bodies as calls. -/
def branchesWithCalls : List Branch → List Branch
  | [] => []
  | ⟨condition, body⟩ :: branches =>
    ⟨condition.map callAccesses, withCalls body⟩ :: branchesWithCalls branches

/-- Named slots with the accesses in their bodies as calls. -/
def slotsWithCalls : List NamedSlot → List NamedSlot
  | [] => []
  | ⟨name, body⟩ :: slots => ⟨name, withCalls body⟩ :: slotsWithCalls slots
end

end ViewCompiler.Template
