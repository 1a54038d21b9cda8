import ViewCompiler.Php.Printer
import ViewCompiler.Template.Scope

/-!
# Headers of closures

A unit has a closure or arrow function of its own, one for the mapping of a loop, and one for each
slot with more than text, in slots of slots too. `RenderUnit.headers` lists what stands at the
start of each, in the order in which they are written, and all of them stand in the printed unit,
one behind the other (`RenderUnit.standIn_print`). A header is legal if PHP takes its parameters
(`AreParameters`) and its captured names (`Header.CapturesLegally`).
-/

namespace ViewCompiler.Php

open Template (dataName uncapturable)

/-! ## Headers -/

/-- The header of a closure, or of an arrow function: its parameters, which are of one type, and
the names that it captures. -/
structure Header where
  isArrow : Bool
  type : String
  params : List String
  uses : List String

/-- The header as it is written. An arrow function lists no captured names. -/
def Header.text (h : Header) : String :=
  if h.isArrow then arrowFunction "" (parameters h.params h.type)
  else functionHeader (parameters h.params h.type) h.uses

/-- PHP takes the names as parameters: none is there twice, and none is `this` or the same in every
scope. -/
def AreParameters (names : List String) : Prop := names.Nodup ∧ ∀ x ∈ names, x ∉ uncapturable

instance (names : List String) : Decidable (AreParameters names) :=
  inferInstanceAs (Decidable (_ ∧ _))

/-- PHP takes the captured names, and they are sorted: each is there once, none is a parameter too,
and none is `this` or the same in every scope. -/
structure Header.CapturesLegally (h : Header) : Prop where
  sorted : h.uses.Pairwise (· < ·)
  disjoint : ∀ x ∈ h.uses, x ∉ h.params
  allowed : ∀ x ∈ h.uses, x ∉ uncapturable

/-- PHP takes the header. -/
structure Header.Legal (h : Header) : Prop where
  areParameters : AreParameters h.params
  capturesLegally : h.CapturesLegally

/-- A header without captured names. -/
theorem Header.capturesLegally_nil (isArrow : Bool) (type : String) (params : List String) :
    (Header.mk isArrow type params []).CapturesLegally where
  sorted := .nil
  disjoint _ hx := absurd hx List.not_mem_nil
  allowed _ hx := absurd hx List.not_mem_nil

mutual

/-- The headers in an expression: those of the closures in it, at any depth. -/
def Expr.headers : Expr → List Header
  | .concat parts => exprsHeaders parts
  | .component _ _ slots content => argumentsHeaders slots ++ contentHeaders content
  | _ => []

/-- The headers in expressions. -/
def exprsHeaders : List Expr → List Header
  | [] => []
  | value :: values => value.headers ++ exprsHeaders values

/-- The headers in the values of named slots. -/
def argumentsHeaders : List SlotArgument → List Header
  | [] => []
  | ⟨_, value⟩ :: slots => value.headers ++ argumentsHeaders slots

/-- The headers in the value of a default slot. -/
def contentHeaders : Option SlotCode → List Header
  | none => []
  | some value => value.headers

/-- The headers in the value of a slot: its own and those in its body. -/
def SlotCode.headers : SlotCode → List Header
  | .literal _ => []
  | .expression value => ⟨true, "", [], []⟩ :: value.headers
  | .statements uses _ body => ⟨false, "", [], uses⟩ :: statementsHeaders body
  | .buffered uses _ body => ⟨false, "", [], uses⟩ :: markupHeaders body

/-- The headers in a statement. -/
def Stmt.headers : Stmt → List Header
  | .append value => value.headers
  | .conditional branches => statementBranchesHeaders branches
  | .loop _ _ body => statementsHeaders body
  | .existence _ body => statementsHeaders body
  | _ => []

/-- The headers in statements. -/
def statementsHeaders : List Stmt → List Header
  | [] => []
  | statement :: statements => statement.headers ++ statementsHeaders statements

/-- The headers in branches of statements. -/
def statementBranchesHeaders : List StmtBranch → List Header
  | [] => []
  | ⟨_, body⟩ :: branches => statementsHeaders body ++ statementBranchesHeaders branches

/-- The headers in a part of markup. -/
def Markup.headers : Markup → List Header
  | .echo value => value.headers
  | .conditional branches => markupBranchesHeaders branches
  | .loop _ _ body => markupHeaders body
  | .existence _ body => markupHeaders body
  | _ => []

/-- The headers in markup. -/
def markupHeaders : List Markup → List Header
  | [] => []
  | part :: parts => part.headers ++ markupHeaders parts

/-- The headers in branches of markup. -/
def markupBranchesHeaders : List MarkupBranch → List Header
  | [] => []
  | ⟨_, body⟩ :: branches => markupHeaders body ++ markupBranchesHeaders branches
end

/-- The header of the function that maps one element. Only a closure with local variables lists
what it captures. -/
def LoopMap.header (map : LoopMap) : Header :=
  ⟨map.locals.isEmpty, "mixed", map.head.names, if map.locals.isEmpty then [] else map.uses⟩

/-- The headers in the body of a unit. -/
def UnitBody.headers : UnitBody → List Header
  | .value expression => expression.headers
  | .mapping map => map.header :: map.value.headers
  | .buffered body => markupHeaders body

/-- The unit is written as an arrow function. -/
def RenderUnit.isArrow (u : RenderUnit) : Bool :=
  match u.body, u.prologue with
  | .value _, [] => true
  | _, _ => false

/-- The header of a unit. -/
def RenderUnit.header (u : RenderUnit) : Header :=
  ⟨u.isArrow, "array", if u.takesData then [dataName] else [], []⟩

/-- All headers of a unit, in the order in which they are written. -/
def RenderUnit.headers (u : RenderUnit) : List Header := u.header :: u.body.headers

/-! ## Headers in a text -/

/-- The headers stand in the text in this order, each behind the one before it. -/
inductive StandIn : List Header → String → Prop where
  | nil (text : String) : StandIn [] text
  | cons (before : String) (h : Header) {headers : List Header} {after : String}
    (hafter : StandIn headers after) : StandIn (h :: headers) (before ++ h.text ++ after)

/-- The headers of each text stand in it. -/
inductive StandInAll : List Header → List String → Prop where
  | nil : StandInAll [] []
  | cons {headers others : List Header} {line : String} {lines : List String}
    (hline : StandIn headers line) (hlines : StandInAll others lines) :
    StandInAll (headers ++ others) (line :: lines)

section StandIn

variable {headers others : List Header} {text other : String} {lines more : List String}

/-- Headers that stand in a text stand in it behind another text. -/
theorem StandIn.behind (h : StandIn headers text) (before : String) :
    StandIn headers (before ++ text) := by
  cases h with
  | nil => exact .nil _
  | cons first header hafter =>
    rw [← String.append_assoc, ← String.append_assoc]
    exact .cons (before ++ first) header hafter

/-- The headers in two texts stand in both together. -/
theorem StandIn.append (h : StandIn headers text) (hother : StandIn others other) :
    StandIn (headers ++ others) (text ++ other) := by
  induction h with
  | nil text => exact hother.behind text
  | cons before header _ ih =>
    rw [String.append_assoc]
    exact .cons before header ih

/-- A text in front of another one. -/
theorem StandIn.before (h : StandIn headers text) (after : String) :
    StandIn headers (text ++ after) := by
  have happend := h.append (.nil after)
  rwa [List.append_nil] at happend

/-- A text between two others. -/
theorem StandIn.between (h : StandIn headers text) (before after : String) :
    StandIn headers (before ++ text ++ after) := (h.behind before).before after

/-- What follows a header. -/
theorem StandIn.header (h : StandIn headers text) (header : Header) :
    StandIn (header :: headers) (header.text ++ text) := by
  have hcons := StandIn.cons "" header h
  rwa [String.empty_append] at hcons

/-- No headers stand in any lines. -/
theorem standInAll_plain (lines : List String) : StandInAll [] lines := by
  induction lines with
  | nil => exact .nil
  | cons line lines ih => exact .cons (.nil line) ih

/-- The headers in two lists of lines stand in both together. -/
theorem StandInAll.append (h : StandInAll headers lines) (hmore : StandInAll others more) :
    StandInAll (headers ++ others) (lines ++ more) := by
  induction h with
  | nil => exact hmore
  | cons hline _ ih =>
    rw [List.append_assoc, List.cons_append]
    exact .cons hline ih

/-- The headers in a text stand in it as a line. -/
theorem standInAll_singleton (h : StandIn headers text) : StandInAll headers [text] := by
  have hcons := StandInAll.cons h .nil
  rwa [List.append_nil] at hcons

/-- Lines between others without headers. -/
theorem StandInAll.between (h : StandInAll headers lines) (before after : List String) :
    StandInAll headers (before ++ lines ++ after) := by
  have happend := ((standInAll_plain before).append h).append (standInAll_plain after)
  rwa [List.nil_append, List.append_nil] at happend

/-- Arguments of a call, each on a line of its own. -/
theorem StandInAll.arguments {arguments : List (String × String)}
    (h : StandInAll headers (arguments.map Prod.snd)) (before : String) :
    StandInAll headers (arguments.map fun a => before ++ a.1 ++ ": " ++ a.2 ++ ",") := by
  induction arguments generalizing headers with
  | nil =>
    cases h
    exact .nil
  | cons a arguments ih =>
    rw [List.map_cons] at h
    cases h with
    | cons hline hlines => exact .cons (hline.between _ ",") (ih hlines)

/-- Texts with a separator between each two. -/
theorem StandInAll.intercalate (h : StandInAll headers lines) (separator : String) :
    StandIn headers (separator.intercalate lines) := by
  induction h with
  | nil => exact .nil _
  | @cons headers others line lines hline hlines ih =>
    cases hlines with
    | nil =>
      rw [List.append_nil]
      exact hline
    | cons hnext hrest =>
      rw [String.intercalate_cons_cons, String.append_assoc]
      exact hline.append (ih.behind separator)

/-- A concatenation of expressions. -/
theorem StandInAll.concatenation (h : StandInAll headers lines) :
    StandIn headers (Php.concat lines) := by
  cases h with
  | nil => exact .nil _
  | cons hline hlines => exact (StandInAll.cons hline hlines).intercalate " . "

/-- The headers in lines stand in the text of the lines. -/
theorem StandInAll.join (h : StandInAll headers lines) : StandIn headers (joinLines lines) :=
  h.intercalate "\n"

end StandIn

/-! ## Headers in what is printed -/

/-- The first line of a closure. -/
theorem Header.standIn_line (params : List String) (type : String) (uses : List String) :
    StandIn [⟨false, type, params, uses⟩] (functionHeader (parameters params type) uses) := by
  have hend := (StandIn.nil "").header ⟨false, type, params, uses⟩
  rwa [String.append_empty] at hend

/-- A closure with these lines in it. -/
theorem Header.standIn_function {params : List String} {type : String} {uses : List String}
    {headers : List Header} {lines : List String} (h : StandInAll headers lines) :
    StandIn (⟨false, type, params, uses⟩ :: headers)
      (joinLines (functionHeader (parameters params type) uses :: lines)) :=
  (StandInAll.cons (standIn_line params type uses) h).join

/-- An arrow function with this expression. -/
theorem Header.standIn_arrow {params : List String} {type : String} {headers : List Header}
    {text : String} (h : StandIn headers text) :
    StandIn (⟨true, type, params, []⟩ :: headers)
      (arrowFunction text (parameters params type)) := by
  have harrow : arrowFunction text (parameters params type) =
      (Header.mk true type params []).text ++ text := by
    simp [Header.text, arrowFunction, String.append_assoc]
  rw [harrow]
  exact h.header _

/-- The argument of a component's call and what it is named. -/
theorem standIn_componentCall (layout : Layout) (arguments slots : List (String × String))
    {headers : List Header} (h : StandInAll headers (slots.map Prod.snd)) :
    StandIn headers (componentCall layout arguments slots) := by
  unfold componentCall
  split
  · rename_i hempty
    rw [List.isEmpty_iff.mp hempty] at h
    cases h
    exact .nil _
  · have hlines := (h.arguments (layout.pad 1)).between
      ("component(" :: arguments.map fun a => layout.pad 1 ++ a.1 ++ ": " ++ a.2 ++ ",")
      [layout.pad 0 ++ ")"]
    rw [List.map_append]
    exact hlines.join

/-- The headers in markup stand in it behind a tag. -/
theorem standIn_afterTag {headers : List Header} {text : String} (h : StandIn headers text) :
    StandIn headers (afterTag text) := by
  unfold afterTag
  split
  · exact h.behind "\n"
  · exact h.behind "\n"
  · exact h

mutual

/-- The headers of an expression stand in its text. -/
theorem Expr.standIn_print (layout : Layout) (value : Expr) :
    StandIn value.headers (value.print layout) := by
  match value with
  | .literal _ | .code _ | .operand _ | .asString _ | .escaped _ | .slotValue | .slotString =>
    exact .nil _
  | .concat parts => exact (standInAll_printAll layout parts).concatenation
  | .component className props slots content =>
    have hslots := standInAll_slotLines layout slots
    have hcontent := standInAll_contentArgument layout content
    rw [Expr.headers, Expr.print]
    refine standIn_componentCall layout _ _ ?_
    rw [List.map_append]
    refine StandInAll.append ?_ hcontent
    split
    · rename_i hempty
      rw [List.isEmpty_iff.mp hempty]
      exact .nil
    · exact standInAll_singleton (hslots.between ["["] [layout.pad 1 ++ "]"]).join

/-- The headers of expressions stand in their texts. -/
theorem standInAll_printAll (layout : Layout) (values : List Expr) :
    StandInAll (exprsHeaders values) (printAll layout values) := by
  match values with
  | [] => exact .nil
  | value :: values => exact .cons (value.standIn_print layout) (standInAll_printAll layout values)

/-- The headers of named slots stand in their lines. -/
theorem standInAll_slotLines (layout : Layout) (slots : List SlotArgument) :
    StandInAll (argumentsHeaders slots) (slotLines layout slots) := by
  match slots with
  | [] => exact .nil
  | ⟨name, value⟩ :: slots =>
    have hvalue := (value.standIn_print (layout.deeper 2)).between
      (layout.pad 2 ++ stringLiteral name ++ " => ") ","
    exact .cons hvalue (standInAll_slotLines layout slots)

/-- The headers of a default slot stand in its argument. -/
theorem standInAll_contentArgument (layout : Layout) (content : Option SlotCode) :
    StandInAll (contentHeaders content) ((contentArgument layout content).map Prod.snd) := by
  match content with
  | none => exact .nil
  | some value => exact standInAll_singleton (value.standIn_print (layout.deeper 1))

/-- The headers of a slot's value stand in its text. -/
theorem SlotCode.standIn_print (layout : Layout) (code : SlotCode) :
    StandIn code.headers (code.print layout) := by
  match code with
  | .literal _ => exact .nil _
  | .expression value => exact Header.standIn_arrow (value.standIn_print layout)
  | .statements uses locals body =>
    have hbody := standInAll_statementLines (layout.deeper 1) body
    have hlines := hbody.between
      (assignLines (layout.deeper 1) locals ++ [(layout.deeper 1).pad 0 ++ "$__out = '';"])
      [(layout.deeper 1).pad 0 ++ "return $__out;", layout.pad 0 ++ "\x7d"]
    exact Header.standIn_function hlines
  | .buffered uses locals body =>
    have hbody := standIn_afterTag (standIn_printMarkup layout.indent body)
    have hline := hbody.between ((layout.deeper 1).pad 0 ++ "ob_start(); ?>") "<?php"
    have hlines := (standInAll_singleton hline).between []
      [(layout.deeper 1).pad 0 ++ "return ob_get_clean();", layout.pad 0 ++ "\x7d"]
    exact Header.standIn_function
      ((standInAll_plain (assignLines (layout.deeper 1) locals)).append hlines)

/-- The headers of a statement stand in its lines. -/
theorem Stmt.standInAll_lines (layout : Layout) (s : Stmt) :
    StandInAll s.headers (s.lines layout) := by
  match s with
  | .comment _ | .host _ | .flag .. => exact standInAll_plain _
  | .append value =>
    exact standInAll_singleton ((value.standIn_print layout).between _ ";")
  | .conditional branches =>
    exact (standInAll_branchLines layout 0 branches).between [] [layout.pad 0 ++ "\x7d"]
  | .loop head locals body =>
    exact (standInAll_statementLines (layout.deeper 1) body).between
      ((layout.pad 0 ++ header head ++ " \x7b") :: assignLines (layout.deeper 1) locals)
      [layout.pad 0 ++ "\x7d"]
  | .existence expression body =>
    exact (standInAll_statementLines (layout.deeper 1) body).between
      [layout.pad 0 ++ existenceHeader expression ++ " \x7b"] [layout.pad 0 ++ "\x7d"]

/-- The headers of statements stand in their lines. -/
theorem standInAll_statementLines (layout : Layout) (body : List Stmt) :
    StandInAll (statementsHeaders body) (statementLines layout body) := by
  match body with
  | [] => exact .nil
  | s :: rest => exact (s.standInAll_lines layout).append (standInAll_statementLines layout rest)

/-- The headers of branches of statements stand in their lines. -/
theorem standInAll_branchLines (layout : Layout) (index : Nat) (branches : List StmtBranch) :
    StandInAll (statementBranchesHeaders branches) (branchLines layout index branches) := by
  match branches with
  | [] => exact .nil
  | ⟨condition, body⟩ :: branches =>
    have hbody := (standInAll_statementLines (layout.deeper 1) body).append
      (standInAll_branchLines layout (index + 1) branches)
    exact (standInAll_plain [_]).append hbody

/-- The headers of a part of markup stand in its text. -/
theorem Markup.standIn_print (indent : String) (part : Markup) :
    StandIn part.headers (part.print indent) := by
  match part with
  | .text _ | .comment _ | .host _ | .flag .. => exact .nil _
  | .echo value => exact (value.standIn_print ⟨indent, 0⟩).between "<?= " " ?>"
  | .conditional branches => exact (standIn_printBranches indent 0 branches).before _
  | .loop head locals body | .existence _ body =>
    exact (standIn_printMarkup indent body).between _ _

/-- The headers of markup stand in its text. -/
theorem standIn_printMarkup (indent : String) (parts : List Markup) :
    StandIn (markupHeaders parts) (printMarkup indent parts) := by
  match parts with
  | [] => exact .nil _
  | part :: parts => exact (part.standIn_print indent).append (standIn_printMarkup indent parts)

/-- The headers of branches of markup stand in their text. -/
theorem standIn_printBranches (indent : String) (index : Nat) (branches : List MarkupBranch) :
    StandIn (markupBranchesHeaders branches) (printBranches indent index branches) := by
  match branches with
  | [] => exact .nil _
  | ⟨condition, body⟩ :: branches =>
    exact ((standIn_printMarkup indent body).behind _).append
      (standIn_printBranches indent (index + 1) branches)
end

/-! ## Units -/

/-- The headers of a function that a loop is mapped with stand in its text. -/
theorem LoopMap.standIn_mapper (layout : Layout) (map : LoopMap) :
    StandIn (map.header :: map.value.headers) (map.mapper layout) := by
  have hvalue := map.value.standIn_print (layout.deeper 1)
  unfold LoopMap.header LoopMap.mapper
  cases hlocals : map.locals with
  | nil => exact Header.standIn_arrow hvalue
  | cons b locals =>
    have hline := hvalue.between ((layout.deeper 1).pad 0 ++ "return ") ";"
    have hlines := (standInAll_singleton hline).between [] [layout.pad 0 ++ "\x7d"]
    exact Header.standIn_function
      ((standInAll_plain (assignLines (layout.deeper 1) (b :: locals))).append hlines)

/-- The headers of a loop that is mapped stand in its text. -/
theorem LoopMap.standIn_print (layout : Layout) (map : LoopMap) :
    StandIn (map.header :: map.value.headers) (map.print layout) := by
  have hmapper := ((map.standIn_mapper layout).behind "implode('', array_map(").before ", "
  have hcall := (hmapper.before
    (if map.head.key.isSome then "array_keys($__items), $__items" else "$__items")).before "))"
  have hparts := (standInAll_singleton hcall).between (map.before.toList.map stringLiteral)
    (map.after.toList.map stringLiteral)
  exact hparts.concatenation

namespace RenderUnit

/-- The headers of a unit's body stand in its lines. -/
theorem standInAll_bodyLines (layout : Layout) (body : UnitBody) :
    StandInAll body.headers (bodyLines layout body) := by
  match body with
  | .value value =>
    exact standInAll_singleton ((value.standIn_print layout).between _ ";")
  | .mapping map =>
    have hline := (map.standIn_print layout).between (layout.pad 0 ++ "return ") ";"
    exact (standInAll_plain [layout.pad 0 ++ map.setup, ""]).append (standInAll_singleton hline)
  | .buffered body =>
    have hline := (standIn_printMarkup layout.indent body).before "<?php"
    exact (standInAll_singleton hline).between [layout.pad 0 ++ "ob_start();", "?>"]
      [layout.pad 0 ++ "return ob_get_clean();"]

/-- The parameters of a unit are those of its header. -/
theorem params_eq (u : RenderUnit) :
    u.params = parameters (if u.takesData then [dataName] else []) "array" := by
  rw [params]
  split
  · decide
  · decide

/-- **All headers of a unit stand in it as it is printed**, one behind the other. -/
theorem standIn_print (indent : String) (u : RenderUnit) : StandIn u.headers (u.print indent) := by
  let params := if u.takesData then [dataName] else []
  have harrow : ∀ value : Expr, StandIn (⟨true, "array", params, []⟩ :: value.headers)
      (opening ++ "return " ++ arrowFunction (value.print ⟨indent, 0⟩) u.params ++ ";\n") := by
    intro value
    rw [u.params_eq]
    exact (Header.standIn_arrow (value.standIn_print ⟨indent, 0⟩)).between
      (opening ++ "return ") ";\n"
  have hfunction : StandIn (⟨false, "array", params, []⟩ :: u.body.headers)
      (opening ++ u.printFunction indent) := by
    have hheader := (Header.standIn_line params "array" []).behind "return "
    have hbody := standInAll_bodyLines ⟨indent, 1⟩ u.body
    rw [printFunction, u.params_eq]
    exact ((StandInAll.cons hheader (hbody.between _ ["\x7d;"])).join.before "\n").behind opening
  rw [headers, header, isArrow, print]
  cases hbody : u.body with
  | value value =>
    cases hprologue : u.prologue with
    | nil => exact harrow value
    | cons line lines =>
      rw [hbody] at hfunction
      exact hfunction
  | mapping map =>
    rw [hbody] at hfunction
    exact hfunction
  | buffered body =>
    rw [hbody] at hfunction
    exact hfunction

end RenderUnit

end ViewCompiler.Php
