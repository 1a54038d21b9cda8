import ViewCompiler.Compile.Markup
import ViewCompiler.Compile.Statement
import ViewCompiler.Template.Hoist

/-!
# The value of a slot

A slot's content is compiled in the form that `slotForm` picks. A closure captures the variables
that are free in the content by value. Repeated accessor calls are bound at the start of the
closure, under names that are taken in the whole unit.

The slots inside a slot are compiled in the same way, so the recursion goes down the nesting of
slots; the content of a slot nests at most as many as `slotDepth` says.
-/

namespace ViewCompiler.Compile

open Template Php

/-- The text of nodes that are text. -/
def textOf (nodes : List Node) : String :=
  String.join <| nodes.map fun node =>
    match node with
    | .text content => content
    | _ => ""

/-- The value of a slot whose content nests fewer than `nesting` slots. -/
def slotCode (path : String) : (nesting : Nat) → SlotCompiler
  | 0, _ => throw .tooDeep
  | nesting + 1, nodes => do
    let slot := slotCode path nesting
    let body := trimSlot nodes
    match slotForm body with
    | .literal => return .literal (textOf body)
    | .expression => return .expression (← expression slot path (visible false body))
    | .statements =>
      let (deduped, locals) ← taking (dedup body)
      return .statements (captured body []) locals
        (← statements slot path (visible false deduped))
    | .buffered =>
      let (deduped, locals) ← taking (dedup body)
      return .buffered (captured body []) locals (← markup slot path deduped)

/-- The value of a slot. -/
def slot (path : String) (nodes : List Node) : Emit SlotCode :=
  slotCode path (slotDepth nodes + 1) nodes

/-- How the slots of a tree are compiled. -/
def slotsOf (path : String) (nodes : List Node) : SlotCompiler := slotCode path (slotDepth nodes)

end ViewCompiler.Compile
