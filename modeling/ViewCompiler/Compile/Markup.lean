import ViewCompiler.Compile.Expression

/-!
# Trees as markup

The tags that a tree becomes where its output is printed. Text is printed as it stands, and every
other node becomes tags around the tags of its bodies.
-/

namespace ViewCompiler.Compile

open Template Php

/-- What an echo prints. -/
def echoMarkup (expression : String) (escaped : Bool) : Markup :=
  if Node.isSlotEcho expression then .echo .slotValue
  else if escaped then .echo (.escaped expression)
  else .echo (.code expression)

mutual

/-- A node as markup. -/
def markupOf (slot : SlotCompiler) (path : String) : Node → Emit Markup
  | .text content => return .text content
  | .comment content => return .comment content
  | .echo expression escaped => return echoMarkup expression escaped
  | .host code echo => return if echo then .echo (.code code) else .host code
  | .component tag attributes content slots =>
    return .echo (← component slot path tag attributes content slots)
  | .conditional branches => return .conditional (← branchesMarkup slot path branches)
  | .loop head bindings body => return .loop head bindings (← markup slot path body)
  | .existence expression body => return .existence expression (← markup slot path body)
  | .flag kind expression => return .flag kind expression

/-- Nodes as markup. -/
def markup (slot : SlotCompiler) (path : String) : List Node → Emit (List Markup)
  | [] => return []
  | node :: nodes => return (← markupOf slot path node) :: (← markup slot path nodes)

/-- Branches as markup. -/
def branchesMarkup (slot : SlotCompiler) (path : String) : List Branch → Emit (List MarkupBranch)
  | [] => return []
  | ⟨condition, body⟩ :: branches =>
    return ⟨condition, ← markup slot path body⟩ :: (← branchesMarkup slot path branches)
end

end ViewCompiler.Compile
