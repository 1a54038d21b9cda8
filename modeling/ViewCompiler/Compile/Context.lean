import ViewCompiler.Names
import ViewCompiler.Php.Layout
import ViewCompiler.Template.Node

/-!
# Settings and failures of a compilation

A compilation is told the namespace of the component classes and the layout of the code. Its state
is the names taken in the unit. It fails where a form is asked of nodes that have none.
-/

namespace ViewCompiler.Compile

open Template (Node)
open Php (Layout)

/-! ## Settings -/

/-- The namespace of component classes if none is given. -/
def defaultNamespace : String := "App\\View\\Components\\"

/-- The text of one level of indentation if none is given. -/
def defaultIndent : String := "  "

/-- The settings of a compilation. -/
structure Context where
  componentNamespace : String
  layout : Layout
deriving DecidableEq

/-- The context at another level of indentation. -/
def Context.at (context : Context) (depth : Int) : Context :=
  { context with layout := context.layout.at depth }

/-- The context one level further in. -/
def Context.nested (context : Context) : Context :=
  { context with layout := context.layout.deeper 1 }

/-! ## Failures -/

/-- The kinds of nodes. -/
inductive NodeKind where
  | text
  | comment
  | echo
  | host
  | conditional
  | loop
  | existence
  | flag
  | component
deriving DecidableEq

/-- The kind of a node. -/
def kind : Node → NodeKind
  | .text _ => .text
  | .comment _ => .comment
  | .echo .. => .echo
  | .host .. => .host
  | .conditional _ => .conditional
  | .loop .. => .loop
  | .existence .. => .existence
  | .flag .. => .flag
  | .component .. => .component

/-- Why a tree has no code of a form. -/
inductive EmitError where
  /-- A node has no value as an expression. -/
  | notInterpolation (kind : NodeKind)
  /-- A tree is not a single loop with a flat body. -/
  | notSingleLoop
  /-- Slots are nested deeper than was allowed for. -/
  | tooDeep
deriving DecidableEq

/-- A computation that may take names and may fail. -/
abbrev Emit := StateT Names (Except EmitError)

/-- Runs a computation that takes names and never fails. -/
def taking {α : Type} (m : StateM Names α) : Emit α := modifyGet m.run

end ViewCompiler.Compile
