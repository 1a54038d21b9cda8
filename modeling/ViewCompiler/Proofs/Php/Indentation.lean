import ViewCompiler.Php.Printer

/-!
# Indentation

Code is laid out if its layout decides on nothing but the blanks in front of its texts: it is made
of stretches, each of which is some levels of indentation and a text (`Laid`). Everything that is
printed is laid out (`RenderUnit.laid_print`). So the level does not matter where a level has no
blanks (`Laid.print_level`), and a mark that stands for one level and occurs nowhere else can be
replaced by the blanks of any indentation (`Laid.print_indent`).

Only one place of the printer looks at printed text: a line end at the start of markup is doubled
behind a tag. The start of markup is text of the template or the start of a tag, so this does not
depend on the indentation either (`take_printMarkup`).
-/

namespace ViewCompiler.Php

open Template (flagText)

/-! ## Stretches -/

/-- Some levels of indentation, by the level of the code, and the text behind them. -/
structure Stretch where
  levels : Int → Nat
  text : String

/-- Some levels of indentation. -/
def indentation (indent : String) (levels : Nat) : String :=
  String.join (List.replicate levels indent)

/-- Stretches one after the other, in a layout. -/
def printStretches (layout : Layout) : List Stretch → String
  | [] => ""
  | stretch :: stretches =>
    indentation layout.indent (stretch.levels layout.depth) ++ stretch.text ++
      printStretches layout stretches

/-- The layout decides on nothing in the code but the blanks in front of its texts. -/
def Laid (code : Layout → String) : Prop :=
  ∃ stretches, code = fun layout => printStretches layout stretches

/-- Each line is laid out, and the layout does not decide on how many there are. -/
def LaidLines (lines : Layout → List String) : Prop :=
  ∃ each : List (Layout → String),
    (∀ line ∈ each, Laid line) ∧ lines = fun layout => each.map (· layout)

/-- Each argument is laid out, and the layout does not decide on the names. -/
def LaidArguments (arguments : Layout → List (String × String)) : Prop :=
  ∃ each : List (String × (Layout → String)),
    (∀ a ∈ each, Laid a.2) ∧ arguments = fun layout => each.map fun a => (a.1, a.2 layout)

/-- Stretches in two lists are printed one list after the other. -/
theorem printStretches_append (layout : Layout) (stretches others : List Stretch) :
    printStretches layout (stretches ++ others) =
      printStretches layout stretches ++ printStretches layout others := by
  induction stretches with
  | nil => exact String.empty_append.symm
  | cons stretch stretches ih =>
    rw [List.cons_append, printStretches, printStretches, ih, String.append_assoc,
      String.append_assoc, String.append_assoc]

/-- A stretch at levels that are found from the level around it. -/
def Stretch.relevel (level : Int → Int) (s : Stretch) : Stretch := ⟨s.levels ∘ level, s.text⟩

/-- Stretches at other levels are the stretches in a layout at another level. -/
theorem printStretches_relevel (layout : Layout) (level : Int → Int) (stretches : List Stretch) :
    printStretches layout (stretches.map (Stretch.relevel level)) =
      printStretches ⟨layout.indent, level layout.depth⟩ stretches := by
  induction stretches with
  | nil => rfl
  | cons stretch stretches ih =>
    rw [List.map_cons, printStretches, printStretches, ih]
    rfl

/-! ## Texts that are laid out -/

/-- A text that is the same in every layout is laid out. -/
theorem laid_const (text : String) : Laid fun _ => text := by
  refine ⟨[⟨fun _ => 0, text⟩], funext fun layout => ?_⟩
  rw [printStretches, printStretches, String.append_empty]
  exact String.empty_append.symm

/-- The blanks at the start of a line are laid out. -/
theorem laid_pad (extra : Int) : Laid fun layout => layout.pad extra := by
  refine ⟨[⟨fun depth => (depth + extra).toNat, ""⟩], funext fun layout => ?_⟩
  rw [printStretches, printStretches, String.append_empty, String.append_empty]
  rfl

section Laid

variable {code other : Layout → String}

/-- Two texts that are laid out make one that is. -/
theorem Laid.append (h : Laid code) (hother : Laid other) :
    Laid fun layout => code layout ++ other layout := by
  obtain ⟨stretches, rfl⟩ := h
  obtain ⟨others, rfl⟩ := hother
  exact ⟨stretches ++ others, funext fun layout => (printStretches_append ..).symm⟩

/-- A text between two others. -/
theorem Laid.between (h : Laid code) (before after : String) :
    Laid fun layout => before ++ code layout ++ after :=
  ((laid_const before).append h).append (laid_const after)

/-- A line of code. -/
theorem Laid.line (h : Laid code) (extra : Int) :
    Laid fun layout => layout.pad extra ++ code layout :=
  (laid_pad extra).append h

/-- A line with its blanks is laid out. -/
theorem laid_line (extra : Int) (text : String) : Laid fun layout => layout.pad extra ++ text :=
  (laid_const text).line extra

/-- Code at levels that are found from the level around it. -/
theorem Laid.relevel (h : Laid code) (level : Int → Int) :
    Laid fun layout => code ⟨layout.indent, level layout.depth⟩ := by
  obtain ⟨stretches, rfl⟩ := h
  exact ⟨stretches.map (Stretch.relevel level),
    funext fun layout => (printStretches_relevel layout level stretches).symm⟩

/-- What is laid out is so some levels further in. -/
theorem Laid.deeper (h : Laid code) (levels : Int) :
    Laid fun layout => code (layout.deeper levels) :=
  h.relevel (· + levels)

/-- Code at a level of its own. -/
theorem Laid.atLevel (h : Laid code) (level : Int) :
    Laid fun layout => code ⟨layout.indent, level⟩ := h.relevel fun _ => level

end Laid

/-! ## Lines and arguments -/

section Lines

variable {code : Layout → String} {lines others : Layout → List String}
  {arguments moreArguments : Layout → List (String × String)}

/-- No lines are laid out. -/
theorem laidLines_nil : LaidLines fun _ => [] := ⟨[], fun _ h => absurd h List.not_mem_nil, rfl⟩

/-- One more line that is laid out leaves lines laid out. -/
theorem LaidLines.cons (h : Laid code) (hlines : LaidLines lines) :
    LaidLines fun layout => code layout :: lines layout := by
  obtain ⟨each, heach, rfl⟩ := hlines
  exact ⟨code :: each, List.forall_mem_cons.mpr ⟨h, heach⟩, rfl⟩

/-- One line that is laid out is lines that are. -/
theorem laidLines_singleton (h : Laid code) : LaidLines fun layout => [code layout] :=
  .cons h laidLines_nil

/-- Two lists of lines that are laid out make one that is. -/
theorem LaidLines.append (h : LaidLines lines) (hothers : LaidLines others) :
    LaidLines fun layout => lines layout ++ others layout := by
  obtain ⟨each, heach, rfl⟩ := h
  obtain ⟨more, hmore, rfl⟩ := hothers
  exact ⟨each ++ more, List.forall_mem_append.mpr ⟨heach, hmore⟩,
    funext fun layout => List.map_append.symm⟩

/-- One more line behind the others. -/
theorem LaidLines.concat (hlines : LaidLines lines) (h : Laid code) :
    LaidLines fun layout => lines layout ++ [code layout] := hlines.append (laidLines_singleton h)

/-- The same number of lines, each made from a value. -/
theorem laidLines_map {α : Type} {f : Layout → α → String} {values : List α}
    (h : ∀ a ∈ values, Laid fun layout => f layout a) :
    LaidLines fun layout => values.map (f layout) := by
  refine ⟨values.map fun a layout => f layout a, fun line hline => ?_, funext fun layout => ?_⟩
  · obtain ⟨a, ha, rfl⟩ := List.mem_map.mp hline
    exact h a ha
  · rw [List.map_map]
    rfl

/-- Lines that are laid out are so some levels further in. -/
theorem LaidLines.deeper (h : LaidLines lines) (levels : Int) :
    LaidLines fun layout => lines (layout.deeper levels) := by
  obtain ⟨each, heach, rfl⟩ := h
  refine ⟨each.map fun line layout => line (layout.deeper levels), fun line hline => ?_,
    funext fun layout => ?_⟩
  · obtain ⟨old, hold, rfl⟩ := List.mem_map.mp hline
    exact (heach old hold).deeper levels
  · rw [List.map_map]
    rfl

/-- Lines with a text between each two. -/
theorem LaidLines.intercalate (h : LaidLines lines) (separator : String) :
    Laid fun layout => separator.intercalate (lines layout) := by
  obtain ⟨each, heach, rfl⟩ := h
  induction each with
  | nil => exact laid_const ""
  | cons line each ih =>
    rw [List.forall_mem_cons] at heach
    cases each with
    | nil => exact heach.1
    | cons next each =>
      simp only [List.map_cons, String.intercalate_cons_cons] at ih ⊢
      exact (heach.1.append (laid_const separator)).append (ih heach.2)

/-- The text of lines that are laid out is laid out. -/
theorem LaidLines.join (h : LaidLines lines) : Laid fun layout => joinLines (lines layout) :=
  h.intercalate "\n"

/-- Operands that are laid out are so with dots between them. -/
theorem LaidLines.concatenation (h : LaidLines lines) :
    Laid fun layout => Php.concat (lines layout) := by
  have hjoined := h.intercalate " . "
  obtain ⟨each, -, rfl⟩ := h
  cases each with
  | nil => exact laid_const "''"
  | cons line each => exact hjoined

/-- No arguments are laid out. -/
theorem laidArguments_nil : LaidArguments fun _ => [] :=
  ⟨[], fun _ h => absurd h List.not_mem_nil, rfl⟩

/-- One argument with a text that is laid out is laid out. -/
theorem laidArguments_singleton (name : String) (h : Laid code) :
    LaidArguments fun layout => [(name, code layout)] :=
  ⟨[(name, code)], List.forall_mem_singleton.mpr h, rfl⟩

/-- Two lists of arguments that are laid out make one that is. -/
theorem LaidArguments.append (h : LaidArguments arguments) (hmore : LaidArguments moreArguments) :
    LaidArguments fun layout => arguments layout ++ moreArguments layout := by
  obtain ⟨each, heach, rfl⟩ := h
  obtain ⟨more, hmore, rfl⟩ := hmore
  exact ⟨each ++ more, List.forall_mem_append.mpr ⟨heach, hmore⟩,
    funext fun layout => List.map_append.symm⟩

end Lines

/-! ## What is printed -/

/-- The lines that assign local variables are laid out. -/
theorem laidLines_assignLines (locals : List Template.Binding) :
    LaidLines fun layout => assignLines layout locals :=
  laidLines_map fun b _ => laid_line 0 (assign b)

/-- A line that appends a text that is laid out is laid out. -/
theorem laid_appendLine {code : Layout → String} (h : Laid code) :
    Laid fun layout => appendLine layout (code layout) :=
  (((laid_pad 0).append (laid_const _)).append h).append (laid_const _)

/-- The call of a component with slots that are laid out is laid out. -/
theorem laid_componentCall (arguments : List (String × String))
    {slots : Layout → List (String × String)} (h : LaidArguments slots) :
    Laid fun layout => componentCall layout arguments (slots layout) := by
  obtain ⟨each, heach, rfl⟩ := h
  cases each with
  | nil => exact laid_const _
  | cons a each =>
    have hline : ∀ (name : String) {code : Layout → String}, Laid code →
        Laid fun layout => layout.pad 1 ++ name ++ ": " ++ code layout ++ "," := by
      intro name code hcode
      have hname := ((laid_pad 1).append (laid_const name)).append (laid_const ": ")
      exact (hname.append hcode).append (laid_const ",")
    have hlines : LaidLines fun layout =>
        (arguments ++ (a :: each).map fun a => (a.1, a.2 layout)).map fun a =>
          layout.pad 1 ++ a.1 ++ ": " ++ a.2 ++ "," := by
      simp only [List.map_append, List.map_map]
      exact (laidLines_map fun a _ => hline a.1 (laid_const a.2)).append
        (laidLines_map fun a ha => hline a.1 (heach a ha))
    exact (LaidLines.cons (laid_const _) (hlines.concat (laid_line 0 _))).join

/-- A part of markup that is no text starts with a tag. -/
theorem exists_print_eq (indent : String) {part : Markup} (h : ∀ content, part ≠ .text content) :
    ∃ rest, (part.print indent).toList = '<' :: '?' :: rest := by
  have hcode : ∀ code rest : String,
      ∃ tail, (codeTag code ++ rest).toList = '<' :: '?' :: tail := fun code rest =>
    ⟨(" php".toList.drop 1) ++ ' ' :: code.toList ++ " ?>".toList ++ rest.toList,
      by simp [codeTag]⟩
  match part with
  | .text content => exact absurd rfl (h content)
  | .comment _ | .host _ | .flag .. =>
    rw [Markup.print, ← String.append_empty (s := codeTag _)]
    exact hcode _ _
  | .echo value =>
    rw [Markup.print, echoTag, String.append_assoc, String.toList_append]
    exact ⟨_, rfl⟩
  | .conditional branches =>
    rw [Markup.print]
    match branches with
    | [] =>
      rw [printBranches, String.empty_append, ← String.append_empty (s := codeTag _)]
      exact hcode _ _
    | ⟨condition, body⟩ :: branches =>
      rw [printBranches, String.append_assoc, String.append_assoc]
      exact hcode _ _
  | .loop head locals body =>
    rw [Markup.print, String.append_assoc]
    exact hcode _ _
  | .existence expression body =>
    rw [Markup.print, String.append_assoc]
    exact hcode _ _

/-- The start of markup does not depend on the indentation. -/
theorem take_printMarkup (indent other : String) (parts : List Markup) :
    (printMarkup indent parts).toList.take 2 = (printMarkup other parts).toList.take 2 := by
  induction parts with
  | nil => rw [printMarkup, printMarkup]
  | cons part parts ih =>
    rw [printMarkup, printMarkup, String.toList_append, String.toList_append]
    by_cases htext : ∃ content, part = .text content
    · obtain ⟨content, rfl⟩ := htext
      rw [Markup.print, Markup.print, List.take_append, List.take_append]
      have hshorter := congrArg (List.take (2 - content.toList.length)) ih
      rw [List.take_take, List.take_take, Nat.min_eq_left (Nat.sub_le 2 _)] at hshorter
      rw [hshorter]
    · obtain ⟨rest, hrest⟩ := exists_print_eq indent fun c h => htext ⟨c, h⟩
      obtain ⟨rest', hrest'⟩ := exists_print_eq other fun c h => htext ⟨c, h⟩
      rw [hrest, hrest']
      rfl

/-- Behind a tag a text starts with one more line end, or not, by its first two characters. -/
theorem afterTag_eq (text : String) :
    afterTag text =
      (if text.toList.take 1 = ['\n'] ∨ text.toList.take 2 = ['\r', '\n'] then "\n" else "") ++
        text := by
  unfold afterTag
  split
  · rename_i h
    rw [h, if_pos (.inl rfl)]
  · rename_i h
    rw [h, if_pos (.inr rfl)]
  · rename_i hline hreturn
    rw [if_neg, String.empty_append]
    rintro (h | h)
    · match htext : text.toList, h with
      | _ :: cs, h =>
        obtain rfl := (List.cons.inj h).1
        exact hline cs htext
    · match htext : text.toList, h with
      | _ :: _ :: cs, h =>
        obtain ⟨rfl, htail⟩ := List.cons.inj h
        obtain rfl := (List.cons.inj htail).1
        exact hreturn cs htext

/-- Markup that is laid out is so behind a tag. -/
theorem laid_afterTag {parts : List Markup}
    (h : Laid fun layout => printMarkup layout.indent parts) :
    Laid fun layout => afterTag (printMarkup layout.indent parts) := by
  have hone : ∀ indent, (printMarkup indent parts).toList.take 1 =
      (printMarkup "" parts).toList.take 1 := fun indent => by
    have := congrArg (List.take 1) (take_printMarkup indent "" parts)
    rwa [List.take_take, List.take_take] at this
  simp only [afterTag_eq, hone, take_printMarkup _ "" parts]
  exact (laid_const _).append h

mutual

/-- The text of an expression is laid out. -/
theorem Expr.laid_print (value : Expr) : Laid fun layout => value.print layout := by
  match value with
  | .literal _ | .code _ | .operand _ | .asString _ | .escaped _ | .slotValue | .slotString =>
    simp only [Expr.print]
    exact laid_const _
  | .concat parts =>
    simp only [Expr.print]
    exact (laidLines_printAll parts).concatenation
  | .component className props slots content =>
    simp only [Expr.print]
    refine laid_componentCall _ (LaidArguments.append ?_ (laidArguments_contentArgument content))
    split
    · exact laidArguments_nil
    · refine laidArguments_singleton "slots" (LaidLines.join ?_)
      exact LaidLines.cons (laid_const "[") ((laidLines_slotLines slots).concat (laid_line 1 "]"))

/-- The texts of expressions are laid out. -/
theorem laidLines_printAll (values : List Expr) :
    LaidLines fun layout => printAll layout values := by
  match values with
  | [] =>
    simp only [printAll]
    exact laidLines_nil
  | value :: values =>
    simp only [printAll]
    exact .cons value.laid_print (laidLines_printAll values)

/-- The lines of named slots are laid out. -/
theorem laidLines_slotLines (slots : List SlotArgument) :
    LaidLines fun layout => slotLines layout slots := by
  match slots with
  | [] =>
    simp only [slotLines]
    exact laidLines_nil
  | ⟨name, value⟩ :: slots =>
    simp only [slotLines]
    refine .cons (Laid.append ?_ (laid_const ",")) (laidLines_slotLines slots)
    exact (((laid_pad 2).append (laid_const _)).append (laid_const " => ")).append
      (value.laid_print.deeper 2)

/-- The argument of a default slot is laid out. -/
theorem laidArguments_contentArgument (content : Option SlotCode) :
    LaidArguments fun layout => contentArgument layout content := by
  match content with
  | none =>
    simp only [contentArgument]
    exact laidArguments_nil
  | some value =>
    simp only [contentArgument]
    exact laidArguments_singleton "slot" (value.laid_print.deeper 1)

/-- The text of a slot's value is laid out. -/
theorem SlotCode.laid_print (value : SlotCode) : Laid fun layout => value.print layout := by
  match value with
  | .literal content =>
    simp only [SlotCode.print]
    exact laid_const _
  | .expression value =>
    simp only [SlotCode.print, arrowFunction]
    exact (laid_const _).append value.laid_print
  | .statements uses locals body =>
    simp only [SlotCode.print]
    have hlocals := (laidLines_assignLines locals).deeper 1
    have hbody := (laidLines_statementLines body).deeper 1
    have hopening := (LaidLines.cons (laid_const (functionHeader "" uses)) hlocals).concat
      ((laid_line 0 "$__out = '';").deeper 1)
    exact ((hopening.append hbody).append (.cons ((laid_line 0 "return $__out;").deeper 1)
      (laidLines_singleton (laid_line 0 "\x7d")))).join
  | .buffered uses locals body =>
    simp only [SlotCode.print]
    have hlocals := (laidLines_assignLines locals).deeper 1
    have hbuffer : Laid fun layout => (layout.deeper 1).pad 0 ++ "ob_start(); ?>" ++
        afterTag (printMarkup layout.indent body) ++ "<?php" :=
      (((laid_line 0 "ob_start(); ?>").deeper 1).append
        (laid_afterTag (laid_printMarkup body))).append (laid_const _)
    exact ((LaidLines.cons (laid_const (functionHeader "" uses)) hlocals).append (.cons hbuffer
      (.cons ((laid_line 0 "return ob_get_clean();").deeper 1)
        (laidLines_singleton (laid_line 0 "\x7d"))))).join

/-- The lines of a statement are laid out. -/
theorem Stmt.laidLines_lines (s : Stmt) : LaidLines fun layout => s.lines layout := by
  match s with
  | .comment content =>
    simp only [Stmt.lines]
    exact laidLines_singleton (laid_line 0 _)
  | .host code =>
    simp only [Stmt.lines]
    split
    · exact laidLines_nil
    · exact laidLines_singleton (laid_line 0 _)
  | .append value =>
    simp only [Stmt.lines]
    exact laidLines_singleton (laid_appendLine value.laid_print)
  | .conditional branches =>
    simp only [Stmt.lines]
    exact (laidLines_branchLines 0 branches).concat (laid_line 0 _)
  | .loop head locals body =>
    simp only [Stmt.lines]
    have hlocals := (laidLines_assignLines locals).deeper 1
    have hbody := (laidLines_statementLines body).deeper 1
    exact ((LaidLines.cons ((laid_line 0 (header head)).append (laid_const " \x7b"))
      hlocals).append hbody).concat (laid_line 0 "\x7d")
  | .existence expression body =>
    simp only [Stmt.lines]
    have hbody := (laidLines_statementLines body).deeper 1
    exact (LaidLines.cons ((laid_line 0 (existenceHeader expression)).append (laid_const " \x7b"))
      hbody).concat (laid_line 0 "\x7d")
  | .flag kind expression =>
    simp only [Stmt.lines]
    have happend := (laid_appendLine (laid_const (stringLiteral (flagText kind)))).deeper 1
    have hopening := ((laid_line 0 "if (").append (laid_const expression)).append
      (laid_const ") \x7b")
    exact .cons hopening (.cons happend (laidLines_singleton (laid_line 0 "\x7d")))

/-- The lines of statements are laid out. -/
theorem laidLines_statementLines (body : List Stmt) :
    LaidLines fun layout => statementLines layout body := by
  match body with
  | [] =>
    simp only [statementLines]
    exact laidLines_nil
  | s :: rest =>
    simp only [statementLines]
    exact s.laidLines_lines.append (laidLines_statementLines rest)

/-- The lines of branches are laid out. -/
theorem laidLines_branchLines (index : Nat) (branches : List StmtBranch) :
    LaidLines fun layout => branchLines layout index branches := by
  match branches with
  | [] =>
    simp only [branchLines]
    exact laidLines_nil
  | ⟨condition, body⟩ :: branches =>
    simp only [branchLines]
    have hheader := ((laid_line 0 (if index = 0 then "" else "\x7d ")).append
      (laid_const (branchHeader index condition))).append (laid_const " \x7b")
    have hbody := (laidLines_statementLines body).deeper 1
    exact (LaidLines.cons hheader hbody).append (laidLines_branchLines (index + 1) branches)

/-- The text of a part of markup is laid out. -/
theorem Markup.laid_print (part : Markup) : Laid fun layout => part.print layout.indent := by
  match part with
  | .text _ | .comment _ | .host _ | .flag .. =>
    simp only [Markup.print]
    exact laid_const _
  | .echo value =>
    simp only [Markup.print, echoTag]
    exact (value.laid_print.atLevel 0).between _ _
  | .conditional branches =>
    simp only [Markup.print]
    exact (laid_printBranches 0 branches).append (laid_const _)
  | .loop head locals body =>
    simp only [Markup.print]
    exact (laid_printMarkup body).between _ _
  | .existence expression body =>
    simp only [Markup.print]
    exact (laid_printMarkup body).between _ _

/-- The text of markup is laid out. -/
theorem laid_printMarkup (parts : List Markup) :
    Laid fun layout => printMarkup layout.indent parts := by
  match parts with
  | [] =>
    simp only [printMarkup]
    exact laid_const ""
  | part :: parts =>
    simp only [printMarkup]
    exact part.laid_print.append (laid_printMarkup parts)

/-- The text of branches of markup is laid out. -/
theorem laid_printBranches (index : Nat) (branches : List MarkupBranch) :
    Laid fun layout => printBranches layout.indent index branches := by
  match branches with
  | [] =>
    simp only [printBranches]
    exact laid_const ""
  | ⟨condition, body⟩ :: branches =>
    simp only [printBranches]
    exact ((laid_const _).append (laid_printMarkup body)).append (laid_printBranches _ branches)
end

/-! ## Units -/

/-- The function that a loop is mapped with is laid out. -/
theorem LoopMap.laid_mapper (map : LoopMap) : Laid fun layout => map.mapper layout := by
  unfold LoopMap.mapper
  dsimp only
  split
  · simp only [arrowFunction]
    exact (laid_const _).append (map.value.laid_print.deeper 1)
  · have hlocals := (laidLines_assignLines map.locals).deeper 1
    have hreturn : Laid fun layout =>
        (layout.deeper 1).pad 0 ++ "return " ++ map.value.print (layout.deeper 1) ++ ";" :=
      (((laid_line 0 "return ").append map.value.laid_print).append (laid_const ";")).deeper 1
    exact ((LaidLines.cons (laid_const _) hlocals).append (.cons hreturn
      (laidLines_singleton (laid_line 0 "\x7d")))).join

/-- A loop that is mapped is laid out. -/
theorem LoopMap.laid_print (map : LoopMap) : Laid fun layout => map.print layout := by
  simp only [LoopMap.print]
  have hlines : ∀ texts : List String, LaidLines fun _ => texts.map stringLiteral := fun texts =>
    laidLines_map fun _ _ => laid_const _
  have hmap : Laid fun layout => "implode('', array_map(" ++ map.mapper layout ++ ", " ++
      (if map.head.key.isSome then "array_keys($__items), $__items" else "$__items") ++ "))" :=
    ((map.laid_mapper.between _ _).append (laid_const _)).append (laid_const _)
  exact (((hlines _).append (laidLines_singleton hmap)).append (hlines _)).concatenation

/-- The lines of a unit's body are laid out. -/
theorem RenderUnit.laidLines_bodyLines (body : UnitBody) :
    LaidLines fun layout => bodyLines layout body := by
  match body with
  | .value value =>
    simp only [bodyLines]
    exact laidLines_singleton
      (((laid_line 0 "return ").append value.laid_print).append (laid_const ";"))
  | .mapping map =>
    simp only [bodyLines]
    exact .cons (laid_line 0 _) (.cons (laid_const "") (laidLines_singleton
      (((laid_line 0 "return ").append map.laid_print).append (laid_const ";"))))
  | .buffered body =>
    simp only [bodyLines]
    exact .cons (laid_line 0 _) (.cons (laid_const _)
      (.cons ((laid_printMarkup body).append (laid_const _))
        (laidLines_singleton (laid_line 0 _))))

/-- An empty line, if there are lines before it. -/
theorem laidLines_blank (lines : List String) :
    LaidLines fun _ => if lines.isEmpty then [] else [""] := by
  cases lines with
  | nil => exact laidLines_nil
  | cons line lines => exact laidLines_singleton (laid_const "")

/-- **A unit is laid out.** -/
theorem RenderUnit.laid_print (u : RenderUnit) : Laid fun layout => u.print layout.indent := by
  have hprologue : LaidLines fun layout => u.prologue.map (layout.pad 0 ++ ·) :=
    laidLines_map fun line _ => laid_line 0 line
  have hlines := ((LaidLines.cons (laid_const ("return " ++ functionHeader u.params []))
    hprologue).append (laidLines_blank u.prologue)).append (laidLines_bodyLines u.body)
  have hfunction : Laid fun layout => opening ++ u.printFunction layout.indent := by
    simp only [printFunction, List.isEmpty_map]
    exact (laid_const _).append
      (((hlines.concat (laid_const "\x7d;")).join.append (laid_const "\n")).atLevel 1)
  unfold RenderUnit.print
  split
  · simp only [arrowFunction]
    exact (((laid_const _).append (((laid_const _).append (Expr.laid_print _)).atLevel 0)).append
      (laid_const _))
  · exact hfunction

/-! ## Two indentations -/

/-- The text with an indentation in place of every mark. -/
def fillIn (mark : Char) (indent text : String) : String :=
  String.ofList (text.toList.flatMap fun c => if c = mark then indent.toList else [c])

section FillIn

variable {mark : Char} {indent : String}

/-- Two texts are filled in one after the other. -/
theorem fillIn_append (text other : String) :
    fillIn mark indent (text ++ other) = fillIn mark indent text ++ fillIn mark indent other := by
  rw [fillIn, String.toList_append, List.flatMap_append, String.ofList_append]
  rfl

/-- A text without the mark stays as it is. -/
theorem fillIn_of_notMem {text : String} (h : mark ∉ text.toList) :
    fillIn mark indent text = text := by
  have hsame : ∀ cs : List Char, mark ∉ cs →
      (cs.flatMap fun c => if c = mark then indent.toList else [c]) = cs := by
    intro cs hcs
    induction cs with
    | nil => rfl
    | cons c cs ih =>
      rw [List.mem_cons, not_or] at hcs
      rw [List.flatMap_cons, if_neg (Ne.symm hcs.1), ih hcs.2]
      rfl
  rw [fillIn, hsame _ h, String.ofList_toList]

/-- A mark for each level becomes the levels. -/
theorem fillIn_indentation (levels : Nat) :
    fillIn mark indent (indentation (String.singleton mark) levels) =
      indentation indent levels := by
  induction levels with
  | zero => rfl
  | succ levels ih =>
    have hcons : ∀ s : String, indentation s (levels + 1) = s ++ indentation s levels :=
      fun s => by
      rw [indentation, List.replicate_succ, String.join_cons]
      rfl
    have hmark : fillIn mark indent (String.singleton mark) = indent := by simp [fillIn]
    rw [hcons, hcons, fillIn_append, hmark, ih]

/-- Without an indent no level has blanks. -/
theorem indentation_empty (levels : Nat) : indentation "" levels = "" := by
  induction levels with
  | zero => rfl
  | succ levels ih =>
    rw [indentation, List.replicate_succ, String.join_cons]
    exact String.empty_append.trans ih

/-- Stretches printed with the mark for an indent have it filled in, if the mark is in none of
them. -/
theorem printStretches_eq_fillIn {level : Int} {stretches : List Stretch}
    (h : mark ∉ (printStretches ⟨"", level⟩ stretches).toList) :
    printStretches ⟨indent, level⟩ stretches =
      fillIn mark indent (printStretches ⟨String.singleton mark, level⟩ stretches) := by
  induction stretches with
  | nil => rfl
  | cons stretch stretches ih =>
    simp only [printStretches, indentation_empty, String.empty_append, String.toList_append,
      List.mem_append, not_or] at h
    simp only [printStretches, fillIn_append, fillIn_indentation, fillIn_of_notMem h.1, ih h.2]

variable {code : Layout → String}

/-- **A mark that stands for one level can be filled in afterwards**, if it does not occur in the
code without indentation. -/
theorem Laid.print_indent (h : Laid code) (level : Int)
    (hmark : mark ∉ (code ⟨"", level⟩).toList) :
    code ⟨indent, level⟩ = fillIn mark indent (code ⟨String.singleton mark, level⟩) := by
  obtain ⟨stretches, rfl⟩ := h
  exact printStretches_eq_fillIn hmark

/-- **Without indentation the level does not matter.** -/
theorem Laid.print_level (h : Laid code) (level other : Int) :
    code ⟨"", level⟩ = code ⟨"", other⟩ := by
  obtain ⟨stretches, rfl⟩ := h
  show printStretches _ stretches = printStretches _ stretches
  induction stretches with
  | nil => rfl
  | cons stretch stretches ih =>
    simp only [printStretches, indentation_empty]
    rw [ih]

end FillIn

end ViewCompiler.Php
