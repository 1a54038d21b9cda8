import ViewCompiler.Template.Scope
import ViewCompiler.Template.Visible
import ViewCompiler.Template.Strategy

/-!
# The content of a slot

The content of a slot is trimmed at both ends and then given to the component as a value: a string,
a closure with one expression, a closure with statements, or a closure that buffers its output. The
cheapest form that yields what buffering yields is chosen.
-/

namespace ViewCompiler.Template

/-! ## Trimming -/

/-- The first node without leading blanks, if it is text. -/
def trimFirst : List Node → List Node
  | .text content :: nodes => .text (trimBlanksStart content) :: nodes
  | nodes => nodes

/-- The last node without trailing blanks, if it is text. -/
def trimLast : List Node → List Node
  | [] => []
  | [.text content] => [.text (trimBlanksEnd content)]
  | node :: nodes => node :: trimLast nodes

/-- The node is text without a character. -/
def Node.isEmptyText : Node → Bool
  | .text content => content == ""
  | _ => false

/-- The content of a slot without the blanks at its ends and without empty text. -/
def trimSlot (nodes : List Node) : List Node :=
  (trimLast (trimFirst nodes)).filter (!·.isEmptyText)

/-! ## Forms -/

/-- The forms of a slot's value. -/
inductive SlotForm where
  /-- A string. -/
  | literal
  /-- A closure with one expression. -/
  | expression
  /-- A closure with statements. -/
  | statements
  /-- A closure that buffers its output. -/
  | buffered
deriving DecidableEq

/-- The name of a form. -/
def SlotForm.name : SlotForm → String
  | literal => "literal"
  | expression => "expression"
  | statements => "statements"
  | buffered => "buffered"

/-- The form for content that is trimmed already. -/
def slotForm (body : List Node) : SlotForm :=
  if body.all Node.isText then .literal
  else if isInterpolationAlone (visible false body) && (freeVariables body []).isEmpty then
    .expression
  else if !printsText (visible false body) then .statements
  else .buffered

/-! ## Nesting -/

mutual

/-- How many slots are nested in each other in a node, at most. -/
def Node.slotDepth : Node → Nat
  | .conditional branches => branchesSlotDepth branches
  | .loop _ _ body => slotDepth body
  | .existence _ body => slotDepth body
  | .component _ _ content slots => max (slotDepth content) (slotsSlotDepth slots) + 1
  | _ => 0

/-- How many slots are nested in each other in nodes, at most. -/
def slotDepth : List Node → Nat
  | [] => 0
  | node :: nodes => max node.slotDepth (slotDepth nodes)

/-- How many slots are nested in each other in branches, at most. -/
def branchesSlotDepth : List Branch → Nat
  | [] => 0
  | ⟨_, body⟩ :: branches => max (slotDepth body) (branchesSlotDepth branches)

/-- How many slots are nested in each other in named slots, at most. -/
def slotsSlotDepth : List NamedSlot → Nat
  | [] => 0
  | ⟨_, body⟩ :: slots => max (slotDepth body) (slotsSlotDepth slots)
end

end ViewCompiler.Template
