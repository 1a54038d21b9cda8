import ViewCompiler.Compile.Slot
import ViewCompiler.Php.Printer
import ViewCompiler.Template.Parse

/-!
# Compiling a template

A template becomes a unit: a closure that takes the data of the template and yields its output. The
closure first takes the variables that the template reads from the data, then binds the repeated
accessor calls, and then prints the tree in the form that `strategy` picks.
-/

namespace ViewCompiler.Compile

open Template Php

/-! ## The unit of a tree -/

/-- The names that a unit takes from its data: the declarable ones among the free variables, and
the default slot if it is among them. -/
def declaredNames (free : List String) : List String :=
  if free.contains slotName then (declarable free ++ [slotName]).mergeSort nameLe
  else declarable free

/-- The body of a unit in a form. -/
def unitBody (path : String) (strategy : Strategy) (nodes : List Node) : Emit UnitBody :=
  let slot := slotsOf path nodes
  match strategy with
  | .direct | .concatenation => return .value (← expression slot path (visible false nodes))
  | .mapping =>
    match mapCandidate? (visible false nodes) with
    | some candidate => return .mapping (← loopMap slot path candidate)
    | none => throw .notSingleLoop
  | .buffered => return .buffered (← markup slot path nodes)

/-- The unit of a tree whose accesses are calls, and the form of its body. -/
def unitOf (path : String) (nodes : List Node) : Emit (RenderUnit × Strategy) := do
  let free := freeVariables nodes []
  let declared := declaredNames free
  let (deduped, locals) ← taking (dedup nodes)
  let form := strategy deduped free locals
  let body ← unitBody path form deduped
  let takesData := !declared.isEmpty || !locals.isEmpty || free.contains dataName
  return (⟨takesData, declared, locals, body⟩, form)

/-! ## The text of a template's unit -/

/-- Why a template cannot be compiled. -/
inductive CompileError where
  | parse (error : ParseError)
  | emit (error : EmitError)

/-- A compiled template: the text of its unit and the form of its body. -/
structure Compiled where
  php : String
  strategy : Strategy

/-- Compiles a template. -/
def compile (template path indent : String) : Except CompileError Compiled := do
  let nodes ← (parse template).mapError .parse
  let (unit, _) ← ((unitOf path (withCalls nodes)).run []).mapError .emit
  return ⟨unit.1.print indent, unit.2⟩

end ViewCompiler.Compile
