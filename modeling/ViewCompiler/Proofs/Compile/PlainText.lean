import ViewCompiler.Proofs.Compile.Totality
import ViewCompiler.Proofs.Php.StringLiteral
import ViewCompiler.Proofs.Template.Entering
import ViewCompiler.Proofs.Template.Reading
import ViewCompiler.Proofs.Template.WellFormed

/-!
# Templates that are plain text

A template in which nothing is recognised is parsed as one text, or as nothing if it is empty
(`eq_plainNodes`). That is so if all its lexemes are text (`isPlain_of_lexemes`), and if what looks
like a construct turns out to be none. Its unit is a function with the literal of the template for
its value (`compile_plain`), so the literal is read back as the template.
-/

namespace ViewCompiler.Compile

open Template Php
open Expression (literal?)

/-! ## Parsing plain text -/

/-- Nothing is recognised in the template: it is parsed as text alone. -/
def IsPlain (template : String) : Prop :=
  ∃ nodes, parse template = .ok nodes ∧ ∀ node ∈ nodes, node.isText = true

/-- The tree of a template in which nothing is recognised. -/
def plainNodes (template : String) : List Node := if template = "" then [] else [.text template]

/-- A tree of text alone is the text of the template, since no text is empty or next to another. -/
theorem eq_plainNodes {template : String} {nodes : List Node} (h : parse template = .ok nodes)
    (htext : ∀ node ∈ nodes, node.isText = true) : nodes = plainNodes template := by
  have hwell := wellFormed_of_parse h
  have hderives := derivesAll_of_parse h
  generalize hsource : template.toList = source at hderives
  cases hderives with
  | nil => rw [plainNodes, if_pos (String.toList_eq_nil_iff.mp hsource)]
  | @cons node nodes _ _ hnode hrest =>
    obtain ⟨hisText, hothers⟩ := List.forall_mem_cons.mp htext
    obtain ⟨content, rfl⟩ := exists_text_of_isText hisText
    obtain ⟨hne, hlast, -⟩ := hwell
    cases hrest with
    | nil =>
      rw [List.append_nil, source_of_derives_text hnode, String.toList_inj] at hsource
      rw [hsource, plainNodes, if_neg hne]
    | @cons other nodes _ _ hother =>
      obtain ⟨content', rfl⟩ := exists_text_of_isText (hothers other List.mem_cons_self)
      exact nomatch (hlast rfl : true = false)

/-- Adding empty text adds nothing. -/
theorem addText_empty (r : Reading) : r.addText "" = r := by
  obtain ⟨root, frames⟩ := r
  cases frames <;> rfl

/-- Lexemes that are text are entered as one text. -/
theorem foldlM_step_text {ls : List Lexeme} (h : ∀ l ∈ ls, l.saying = .text) (r : Reading) :
    ls.foldlM Reading.step r = .ok (r.addText (String.ofList (ls.flatMap (·.raw.toList)))) := by
  induction ls generalizing r with
  | nil =>
    rw [List.flatMap_nil, String.ofList_nil, addText_empty]
    rfl
  | cons l ls ih =>
    obtain ⟨hl, hls⟩ := List.forall_mem_cons.mp h
    have hstep : r.step l = .ok (r.addText l.raw) := by rw [Reading.step, hl]
    rw [List.foldlM_cons, hstep]
    show ls.foldlM Reading.step (r.addText l.raw) = _
    rw [ih hls, Reading.addText_addText, List.flatMap_cons, String.ofList_append,
      String.ofList_toList]

/-- **Nothing is recognised in a template whose lexemes are all text.** -/
theorem isPlain_of_lexemes {template : String} (h : ∀ l ∈ lexemes template, l.saying = .text) :
    IsPlain template := by
  have hfinish : (Reading.start.addText template).finish = plainNodes template := by
    show nodesOf (addChild [] (.text template)) = _
    rw [addChild_text, plainNodes]
    split <;> rfl
  have hparse : parse template = .ok (plainNodes template) := by
    rw [parse, foldlM_step_text h, raw_lexemes, String.ofList_toList]
    exact congrArg Except.ok hfinish
  refine ⟨_, hparse, fun node hnode => ?_⟩
  unfold plainNodes at hnode
  split at hnode
  · cases hnode
  · rw [List.mem_singleton.mp hnode]
    rfl

/-! ## Compiling plain text -/

/-- What stands before the literal in the unit of plain text. -/
def plainOpening : String :=
  "<?php\n\ndeclare(strict_types=1);\n\nreturn static fn(): string => "

/-- The value of the unit of plain text. -/
def plainValue (template : String) : Expr :=
  if template = "" then .concat [] else .literal template

/-- The value of a text is printed as its literal. -/
theorem print_plainValue (template : String) (layout : Layout) :
    (plainValue template).print layout = stringLiteral template := by
  unfold plainValue
  split
  · rename_i hempty
    rw [hempty]
    rfl
  · rfl

/-- All of a text is visible. -/
theorem visible_plainNodes (template : String) :
    visible false (plainNodes template) = plainNodes template := by
  unfold plainNodes
  split
  · rfl
  · rename_i hne
    simp [visible, visibleText, hne]

/-- A template in which nothing is recognised becomes a unit with its text as the value. -/
theorem run_unitOf_plain (path template : String) :
    (unitOf path (plainNodes template)).run [] =
      .ok ((⟨false, [], [], .value (plainValue template)⟩, .concatenation), []) := by
  have hfree : freeVariables (plainNodes template) [] = [] := by
    have hreads : reads [] (plainNodes template) = [] := by
      unfold plainNodes
      split <;> rfl
    rw [freeVariables, hreads]
    simp [sorted]
  have hdeclared : declaredNames [] = [] := by simp [declaredNames, declarable]
  have hdedup : (taking (dedup (plainNodes template))).run [] =
      .ok ((plainNodes template, []), []) := by
    unfold plainNodes
    split <;> rfl
  have hform : strategy (plainNodes template) [] [] = .concatenation := by
    rw [strategy, visible_plainNodes]
    unfold plainNodes
    split <;> rfl
  have hbody : (unitBody path .concatenation (plainNodes template)).run [] =
      .ok (.value (plainValue template), []) := by
    rw [unitBody, visible_plainNodes]
    unfold plainNodes plainValue
    split <;> rfl
  rw [unitOf, hfree, run_bind hdedup]
  dsimp only
  rw [hform, run_bind hbody, hdeclared]
  rfl

/-- **A template in which nothing is recognised is compiled to its literal.** -/
theorem compile_plain {template : String} (h : IsPlain template) (path indent : String) :
    compile template path indent =
      .ok ⟨plainOpening ++ stringLiteral template ++ ";\n", .concatenation⟩ := by
  obtain ⟨nodes, hparse, htext⟩ := h
  have hcalls : withCalls (plainNodes template) = plainNodes template := by
    unfold plainNodes
    split <;> rfl
  have hopening : RenderUnit.opening ++ "return " ++ ("static fn(" ++ "" ++ "): string => ") =
      plainOpening := by
    decide
  have hprint : RenderUnit.print indent ⟨false, [], [], .value (plainValue template)⟩ =
      plainOpening ++ stringLiteral template ++ ";\n" := by
    show RenderUnit.opening ++ "return " ++
      (("static fn(" ++ "" ++ "): string => ") ++ (plainValue template).print ⟨indent, 0⟩) ++
        ";\n" = _
    rw [print_plainValue, ← String.append_assoc, hopening]
  rw [compile, hparse, eq_plainNodes hparse htext]
  show (do
    let result ← ((unitOf path (withCalls (plainNodes template))).run []).mapError
      CompileError.emit
    return ⟨result.1.1.print indent, result.1.2⟩ : Except CompileError Compiled) = _
  rw [hcalls, run_unitOf_plain, ← hprint]
  rfl

/-- **Text stays in its literal.** The literal of a text is read as the text and ends where it
ends, by the host language and by the compiler, whatever stands behind it; different texts have
different literals; and a template in which nothing is recognised is compiled to a unit whose
literal is read as the template. -/
theorem stringLiteral_reads_back (text : String) (following : List Char) :
    singleQuoted? ((stringLiteral text).toList ++ following) = some (text.toList, following) ∧
    (literal? ((stringLiteral text).toList ++ following) = some (literalOf text, following) ∧
      (literalOf text).text = (stringLiteral text).toList) ∧
    Function.Injective stringLiteral ∧
    ((∀ l ∈ lexemes text, l.saying = .text) → IsPlain text) ∧
    (IsPlain text → ∀ path indent, ∃ compiled rest, compile text path indent = .ok compiled ∧
      compiled.php.toList = plainOpening.toList ++ rest ∧
      singleQuoted? rest = some (text.toList, ";\n".toList)) := by
  refine ⟨singleQuoted?_stringLiteral text following,
    ⟨literal?_stringLiteral text following, text_literalOf text⟩, stringLiteral_injective,
    isPlain_of_lexemes, fun h path indent => ?_⟩
  refine ⟨_, _, compile_plain h path indent, ?_, singleQuoted?_stringLiteral text _⟩
  rw [String.toList_append, String.toList_append, List.append_assoc]

/-- A condition that is never closed, with a backslash at the end of the text. -/
theorem stringLiteral_reads_back_unclosed :
    ∃ compiled rest, compile "@if($a) it's \\'\\" "" "  " = .ok compiled ∧
      compiled.php.toList = plainOpening.toList ++ rest ∧
      singleQuoted? rest = some ("@if($a) it's \\'\\".toList, ";\n".toList) := by
  obtain ⟨-, -, -, -, hcompile⟩ := stringLiteral_reads_back "@if($a) it's \\'\\" []
  refine hcompile ?_ "" "  "
  have hall : (parse "@if($a) it's \\'\\").toOption.any (·.all Node.isText) = true := by
    decide +kernel
  obtain ⟨nodes, hparse, htext⟩ := exists_parse_of_any hall
  exact ⟨nodes, hparse, List.all_eq_true.mp htext⟩

end ViewCompiler.Compile
