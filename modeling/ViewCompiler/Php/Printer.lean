import ViewCompiler.Php.Fragment
import ViewCompiler.Php.Layout
import ViewCompiler.Php.Syntax

/-!
# Printing units

The text of the code that is written. Expressions and statements are laid out over lines where a
component has slots; markup is written as it stands, since its text is output, and components in it
start at level zero.

After the tag that ends code PHP drops one line end. Markup that starts with a line end is
therefore given another one where it follows such a tag on the same line.
-/

namespace ViewCompiler.Php

open Template (Binding LoopHead flagText)

/-- Lines as a text. -/
def joinLines (lines : List String) : String := "\n".intercalate lines

/-- The value of a prop. -/
def PropValue.text : PropValue → String
  | flag => "true"
  | expression code => code
  | literal content => stringLiteral content

/-- The assignment of a local variable. -/
def assign (b : Binding) : String := assignment b.name b.value

/-- The header of a loop. -/
def header (head : LoopHead) : String := loopHeader head.collection head.item head.key

/-- The line that appends an expression to the output variable. -/
def appendLine (layout : Layout) (expression : String) : String :=
  layout.pad 0 ++ "$__out .= " ++ expression ++ ";"

/-- The lines that assign local variables. -/
def assignLines (layout : Layout) (locals : List Binding) : List String :=
  locals.map fun b => layout.pad 0 ++ assign b

/-- The rendering of a component: a call on one line, or with one line for each argument if there
are slots. -/
def componentCall (layout : Layout) (arguments slots : List (String × String)) : String :=
  if slots.isEmpty then namedCall "component" arguments
  else joinLines <|
    "component(" ::
      (arguments ++ slots).map (fun a => layout.pad 1 ++ a.1 ++ ": " ++ a.2 ++ ",") ++
      [layout.pad 0 ++ ")"]

/-- The arguments of a component that are not slots. -/
def componentArguments (className : String) (props : List ComponentProp) :
    List (String × String) :=
  ("componentClass", className ++ "::class") ::
    if props.isEmpty then []
    else [("props", arrayLiteral (props.map fun p => (p.name, p.value.text)))]

/-- Text that follows a tag on its line, so that PHP prints all of it. -/
def afterTag (s : String) : String :=
  match s.toList with
  | '\n' :: _ => "\n" ++ s
  | '\r' :: '\n' :: _ => "\n" ++ s
  | _ => s

/-! ## Expressions, slots, statements and markup -/

mutual

/-- The text of an expression. -/
def Expr.print (layout : Layout) : Expr → String
  | .literal content => stringLiteral content
  | .code code => code
  | .operand code => Php.operand code
  | .asString code => Php.asString code
  | .escaped code => escapeCall code
  | .slotValue => Php.slotValue "$slot"
  | .slotString => Php.slotString "$slot"
  | .concat parts => Php.concat (printAll layout parts)
  | .component className props slots content =>
    let named :=
      if slots.isEmpty then []
      else [("slots", joinLines ("[" :: slotLines layout slots ++ [layout.pad 1 ++ "]"]))]
    componentCall layout (componentArguments className props)
      (named ++ contentArgument layout content)

/-- The texts of expressions. -/
def printAll (layout : Layout) : List Expr → List String
  | [] => []
  | value :: values => value.print layout :: printAll layout values

/-- The lines of named slots. -/
def slotLines (layout : Layout) : List SlotArgument → List String
  | [] => []
  | ⟨name, value⟩ :: slots =>
    (layout.pad 2 ++ stringLiteral name ++ " => " ++ value.print (layout.deeper 2) ++ ",") ::
      slotLines layout slots

/-- The argument for the default slot. -/
def contentArgument (layout : Layout) : Option SlotCode → List (String × String)
  | none => []
  | some value => [("slot", value.print (layout.deeper 1))]

/-- The text of a slot's value. -/
def SlotCode.print (layout : Layout) : SlotCode → String
  | .literal content => stringLiteral content
  | .expression value => arrowFunction (value.print layout) ""
  | .statements uses locals body =>
    let inner := layout.deeper 1
    joinLines <|
      functionHeader "" uses :: assignLines inner locals ++ [inner.pad 0 ++ "$__out = '';"] ++
        statementLines inner body ++ [inner.pad 0 ++ "return $__out;", layout.pad 0 ++ "\x7d"]
  | .buffered uses locals body =>
    let inner := layout.deeper 1
    joinLines <|
      functionHeader "" uses :: assignLines inner locals ++
        [inner.pad 0 ++ "ob_start(); ?>" ++ afterTag (printMarkup layout.indent body) ++ "<?php",
          inner.pad 0 ++ "return ob_get_clean();", layout.pad 0 ++ "\x7d"]

/-- The lines of a statement. -/
def Stmt.lines (layout : Layout) : Stmt → List String
  | .comment content => [layout.pad 0 ++ Php.comment content]
  | .host code =>
    let code := statement code
    if code = "" then [] else [layout.pad 0 ++ code]
  | .append value => [appendLine layout (value.print layout)]
  | .conditional branches => branchLines layout 0 branches ++ [layout.pad 0 ++ "\x7d"]
  | .loop head locals body =>
    (layout.pad 0 ++ header head ++ " \x7b") :: assignLines (layout.deeper 1) locals ++
      statementLines (layout.deeper 1) body ++ [layout.pad 0 ++ "\x7d"]
  | .existence expression body =>
    (layout.pad 0 ++ existenceHeader expression ++ " \x7b") ::
      statementLines (layout.deeper 1) body ++ [layout.pad 0 ++ "\x7d"]
  | .flag kind expression =>
    [layout.pad 0 ++ "if (" ++ expression ++ ") \x7b",
      appendLine (layout.deeper 1) (stringLiteral (flagText kind)), layout.pad 0 ++ "\x7d"]

/-- The lines of statements. -/
def statementLines (layout : Layout) : List Stmt → List String
  | [] => []
  | s :: rest => s.lines layout ++ statementLines layout rest

/-- The lines of branches from the branch with a number on, without the brace that ends the
last. -/
def branchLines (layout : Layout) (index : Nat) : List StmtBranch → List String
  | [] => []
  | ⟨condition, body⟩ :: branches =>
    (layout.pad 0 ++ (if index = 0 then "" else "\x7d ") ++ branchHeader index condition ++
        " \x7b")
      :: statementLines (layout.deeper 1) body ++ branchLines layout (index + 1) branches

/-- The text of a part of markup. -/
def Markup.print (indent : String) : Markup → String
  | .text content => content
  | .comment content => codeTag (Php.comment content)
  | .host code => codeTag code
  | .echo value => echoTag (value.print ⟨indent, 0⟩)
  | .conditional branches => printBranches indent 0 branches ++ codeTag "endif;"
  | .loop head locals body =>
    codeTag (" ".intercalate ((header head ++ ":") :: locals.map assign)) ++
      printMarkup indent body ++ codeTag "endforeach;"
  | .existence expression body =>
    codeTag (existenceHeader expression ++ ":") ++ printMarkup indent body ++ codeTag "endif;"
  | .flag kind expression =>
    codeTag ("if (" ++ expression ++ ") \x7b echo " ++ stringLiteral (flagText kind) ++ "; \x7d")

/-- The text of markup. -/
def printMarkup (indent : String) : List Markup → String
  | [] => ""
  | part :: parts => part.print indent ++ printMarkup indent parts

/-- The text of branches from the branch with a number on. -/
def printBranches (indent : String) (index : Nat) : List MarkupBranch → String
  | [] => ""
  | ⟨condition, body⟩ :: branches =>
    codeTag (branchHeader index condition ++ ":") ++ printMarkup indent body ++
      printBranches indent (index + 1) branches
end

/-! ## Units -/

namespace LoopMap

/-- The statement that makes the elements of the loop an array; a false collection has none. -/
def setup (map : LoopMap) : String :=
  let collection := operand map.head.collection ++ " ?: []"
  match map.head.key with
  | some _ => "$__items = iterator_to_array(" ++ collection ++ ");"
  | none => "$__items = iterator_to_array(" ++ collection ++ ", false);"

/-- The function that maps one element. -/
def mapper (layout : Layout) (map : LoopMap) : String :=
  let inner := layout.deeper 1
  let params := parameters map.head.names "mixed"
  let value := map.value.print inner
  if map.locals.isEmpty then arrowFunction value params
  else joinLines <|
    functionHeader params map.uses :: assignLines inner map.locals ++
      [inner.pad 0 ++ "return " ++ value ++ ";", layout.pad 0 ++ "\x7d"]

/-- The expression for the output. -/
def print (layout : Layout) (map : LoopMap) : String :=
  let arrays := if map.head.key.isSome then "array_keys($__items), $__items" else "$__items"
  concat <|
    (map.before.toList.map stringLiteral) ++
      ["implode('', array_map(" ++ map.mapper layout ++ ", " ++ arrays ++ "))"] ++
      map.after.toList.map stringLiteral

end LoopMap

namespace RenderUnit

/-- What every unit starts with. -/
def opening : String := "<?php\n\ndeclare(strict_types=1);\n\n"

/-- The parameters of the closure. -/
def params (u : RenderUnit) : String := if u.takesData then "array $__data" else ""

/-- The assignments ahead of the body. -/
def prologue (u : RenderUnit) : List String :=
  u.declared.map (dataBinding · "$__data") ++ u.locals.map assign

/-- The lines of a body, inside the closure. -/
def bodyLines (layout : Layout) : UnitBody → List String
  | .value value => [layout.pad 0 ++ "return " ++ value.print layout ++ ";"]
  | .mapping map =>
    [layout.pad 0 ++ map.setup, "", layout.pad 0 ++ "return " ++ map.print layout ++ ";"]
  | .buffered body =>
    [layout.pad 0 ++ "ob_start();", "?>", printMarkup layout.indent body ++ "<?php",
      layout.pad 0 ++ "return ob_get_clean();"]

/-- The text of a unit as a closure with a body. -/
def printFunction (indent : String) (u : RenderUnit) : String :=
  let layout : Layout := ⟨indent, 1⟩
  let prologue := u.prologue.map (layout.pad 0 ++ ·)
  joinLines
    (("return " ++ functionHeader u.params []) :: prologue ++
      (if prologue.isEmpty then [] else [""]) ++ bodyLines layout u.body ++ ["\x7d;"]) ++ "\n"

/-- The text of a unit: an arrow function if its body is one expression with nothing ahead of
it. -/
def print (indent : String) (u : RenderUnit) : String :=
  match u.body, u.prologue with
  | .value value, [] =>
    opening ++ "return " ++ arrowFunction (value.print ⟨indent, 0⟩) u.params ++ ";\n"
  | _, _ => opening ++ u.printFunction indent

end RenderUnit

end ViewCompiler.Php
