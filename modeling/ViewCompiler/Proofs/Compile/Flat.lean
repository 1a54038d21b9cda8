import ViewCompiler.Compile.Markup
import ViewCompiler.Proofs.Compile.Reads
import ViewCompiler.Proofs.Php.LineEnds
import ViewCompiler.Proofs.Template.Tidy

/-!
# Interpolations and flat trees, in both forms

The value of an interpolation and its tag do the same (`paired_interpolation`). For a flat tree so
do the concatenation of the values of what is printed and the markup of the tree (`paired_flat`):
the line ends that are taken from the tree are those that the tags drop. Both forms are compiled
from the same slots in the same order, so they take the same names.
-/

namespace ViewCompiler.Compile

open Template Php

variable {machine : Machine} {slot : SlotCompiler} {path : String}

/-! ## Markup that starts with text -/

/-- The markup of an echo is no text. -/
theorem isText_echoMarkup (expression : String) (escaped : Bool) :
    (echoMarkup expression escaped).isText = false := by
  unfold echoMarkup
  split
  · rfl
  · split <;> rfl

/-- The markup of a node is text exactly if the node is. -/
theorem gives_markupOf_isText (node : Node) :
    Gives (markupOf slot path node) fun part => part.isText = node.isText := by
  match node with
  | .text _ | .comment _ | .flag .. => exact gives_pure rfl
  | .echo .. => exact gives_pure (isText_echoMarkup ..)
  | .host code true | .host code false => exact gives_pure rfl
  | .component .. | .conditional _ | .loop .. | .existence .. =>
    exact (gives_any _).bind fun _ _ => gives_pure rfl

/-- Markup starts with text if the nodes do. -/
theorem gives_markup_opensWithText (slot : SlotCompiler) (path : String) (nodes : List Node) :
    Gives (markup slot path nodes) fun parts => opensWithText parts = startsWithText nodes := by
  cases nodes with
  | nil => exact gives_pure rfl
  | cons node nodes =>
    refine (gives_markupOf_isText node).bind fun part hpart => (gives_any _).bind fun _ _ =>
      gives_pure ?_
    rw [startsWithText_cons]
    exact hpart

/-! ## Interpolations -/

/-- Host statements print nothing, and neither what they do nor the value of the output variable
depends on the other; at the end of their text a semicolon may be missing, and blanks make no
difference. -/
structure Silent (machine : Machine) (code : String) : Prop where
  prints_nothing : ∀ s, (machine.perform code s).1 = ""
  ended : ∀ s, machine.perform (statement code) s = machine.perform code s
  blank : statement code = "" → ∀ s, (machine.perform code s).2 = s
  apart : ∀ s v, (machine.perform code (Function.update s outputVariable v)).2 =
    Function.update (machine.perform code s).2 outputVariable v

/-- What is assumed of embedded code: an echo has the value that is written for it, and statements
are silent. -/
def Obeys (machine : Machine) (code : String) : (echo : Bool) → Prop
  | true => ∀ s, machine.eval (hostExpression code) s = machine.eval code s
  | false => Silent machine code

/-- An interpolation does the same as a value and as a tag. -/
theorem paired_interpolation {node : Node} (hnode : node.isInterpolation = true)
    (htidy : node.Tidy (Obeys machine)) :
    Paired (fun value part => part.isText = false ∧
        part.exec machine = Exec.acting fun s => value.acts machine s)
      (interpolation slot path node) (markupOf slot path node) := by
  match node with
  | .echo expression escaped =>
    refine paired_pure ⟨isText_echoMarkup .., ?_⟩
    unfold echoMarkup echoExpression
    split
    · simp only [Markup.exec, Expr.acts]
    · split
      · simp only [Markup.exec]
      · simp only [Markup.exec, Expr.acts]
  | .host code true =>
    refine paired_pure ⟨rfl, ?_⟩
    have hcode : ∀ s, machine.eval (hostExpression code) s = machine.eval code s := htidy
    simp only [if_true, Markup.exec, Expr.acts, hcode]
  | .component tag attributes content slots =>
    rw [interpolation, markupOf]
    refine (paired_self _).map_right fun value other hvalue => ?_
    subst hvalue
    exact ⟨rfl, by rw [Markup.exec]⟩

/-! ## Flat trees -/

/-- The values of a text as it is printed. -/
def textValues (afterTag : Bool) (content : String) : List Expr :=
  if printedText afterTag content = "" then [] else [.literal (printedText afterTag content)]

/-- The values of a visible text are literals, and no name is taken for them. -/
theorem mapM_visibleText (afterTag : Bool) (content : String) :
    (visibleText afterTag content).mapM (interpolation slot path) =
      pure (textValues afterTag content) := by
  show (if printedText afterTag content = "" then []
    else [Node.text (printedText afterTag content)]).mapM
    (interpolation slot path) = _
  unfold textValues
  split
  · rfl
  · rfl

/-- Values in two lists act one list after the other. -/
theorem actsOfAll_append (s : Store machine.Value) (values others : List Expr) :
    actsOfAll machine s (values ++ others) =
      actsOfAll machine s values ++ actsOfAll machine s others := by
  induction values with
  | nil => simp only [List.nil_append, actsOfAll]
  | cons value values ih => simp only [List.cons_append, actsOfAll, ih, List.append_assoc]

/-- The values of a text print the text as it is printed. -/
theorem actsOfAll_textValues (s : Store machine.Value) (afterTag : Bool) (content : String) :
    actsOfAll machine s (textValues afterTag content) =
      literalActs machine (printedText afterTag content) := by
  unfold textValues
  split
  · rename_i hempty
    rw [hempty, literalActs_empty, actsOfAll]
  · simp only [actsOfAll, Expr.acts, List.append_nil]

/-- **The values of a flat tree do the same as its markup.** -/
theorem paired_flat {nodes : List Node} (htidy : Tidy (Obeys machine) nodes) {afterTag : Bool}
    (hflat : ∀ node ∈ content (visible afterTag nodes), hasValue node = true) :
    Paired (fun values parts => execMarkup machine (printedText afterTag) "" parts =
        Exec.acting fun s => actsOfAll machine s values)
      ((content (visible afterTag nodes)).mapM (interpolation slot path))
      (markup slot path nodes) := by
  induction nodes generalizing afterTag with
  | nil =>
    rw [show content (visible afterTag []) = [] from rfl, List.mapM_nil]
    refine paired_pure ?_
    rw [execMarkup_nil]
    simp only [Exec.skip, actsOfAll]
  | cons node nodes ih =>
    obtain ⟨hnode, hparted, hnodes⟩ := htidy
    cases htext : node.isText with
    | true =>
      obtain ⟨text, rfl⟩ := exists_text_of_isText htext
      rw [content_visible_text] at hflat ⊢
      have hrest := (ih hnodes fun node hmem =>
        hflat node (List.mem_append_right _ hmem)).gives_right
          (gives_markup_opensWithText slot path nodes)
      rw [List.mapM_append, mapM_visibleText, pure_bind, markup, markupOf, pure_bind]
      refine hrest.bind fun values parts hparts => paired_pure ?_
      rw [execMarkup_text afterTag text (hparts.2.trans (hparted rfl)), hparts.1,
        Exec.acting_andThen]
      simp only [actsOfAll_append, actsOfAll_textValues]
    | false =>
      cases hcomment : node.isComment with
      | true =>
        -- a comment has no value, but its tag drops the line end after it all the same
        obtain ⟨text, rfl⟩ := exists_comment_of_isComment hcomment
        rw [content_visible_comment] at hflat ⊢
        rw [markup, markupOf, pure_bind]
        refine (ih hnodes hflat).map_right fun values parts hparts => ?_
        rw [execMarkup_tag rfl, hparts, Markup.exec, Exec.skip_andThen]
      | false =>
        rw [content_visible_cons htext hcomment] at hflat ⊢
        obtain ⟨hvalue, hflat⟩ := List.forall_mem_cons.mp hflat
        obtain ⟨hinterpolation, hvisible⟩ := isInterpolation_of_hasValue_visible htext hvalue
        rw [hvisible, List.mapM_cons, markup]
        refine (paired_interpolation hinterpolation hnode).bind fun value part hpart =>
          (ih hnodes hflat).bind fun values parts hparts => paired_pure ?_
        rw [execMarkup_tag hpart.1, hpart.2, hparts, Exec.acting_andThen]
        simp only [actsOfAll]

/-- A flat tree does the same as one expression and as markup. -/
theorem paired_expression {nodes : List Node} (htidy : Tidy (Obeys machine) nodes)
    {afterTag : Bool}
    (hflat : ∀ node ∈ content (visible afterTag nodes), hasValue node = true) :
    Paired (fun value parts => execMarkup machine (printedText afterTag) "" parts =
        Exec.acting fun s => value.acts machine s)
      (expression slot path (visible afterTag nodes)) (markup slot path nodes) := by
  refine (paired_flat htidy hflat).map_left fun values parts h => ?_
  simp only [acts_joinParts]
  exact h

end ViewCompiler.Compile
