import ViewCompiler.Proofs.Php.Execution

/-!
# Line ends after tags, where markup is executed

What markup prints of a text depends on whether the text stands directly after a tag
(`printedText`). The three lemmas about `execMarkup` say what is done at the start of markup:
nothing is left, or a tag comes, or a text comes that no text follows.
-/

namespace ViewCompiler.Php

open Template (dropLineEnd)

variable {machine : Machine}

/-! ## Runs one after the other -/

namespace Exec

variable {α : Type}

/-- Doing nothing first changes nothing. -/
@[simp] theorem skip_andThen (e : Exec machine) : skip.andThen e = e := by
  funext s
  simp [andThen, skip, acting]

/-- Doing nothing afterwards changes nothing. -/
@[simp] theorem andThen_skip (e : Exec machine) : e.andThen skip = e := by
  funext s
  simp [andThen, skip, acting]

/-- Runs follow each other however they are grouped. -/
theorem andThen_assoc (first second third : Exec machine) :
    (first.andThen second).andThen third = first.andThen (second.andThen third) := by
  funext s
  simp [andThen]

/-- Acts that only look at the store follow each other in the same store. -/
theorem acting_andThen (first second : Template.Store machine.Value → List (Act machine.Value)) :
    (acting first).andThen (acting second) = acting fun s => first s ++ second s := rfl

end Exec

/-! ## The text that is printed -/

/-- What is printed of a text, directly after a tag or not. -/
def printedText (afterTag : Bool) (content : String) : String :=
  if afterTag then dropLineEnd content else content

/-- A line feed at the start is dropped. -/
theorem dropLineEnd_newline (content : String) : dropLineEnd ("\n" ++ content) = content := by
  simp [dropLineEnd, String.toList_append]

/-- A text that is protected by another line end after the tag is printed as it is. -/
theorem dropLineEnd_afterTag (content : String) : dropLineEnd (afterTag content) = content := by
  unfold afterTag
  split
  · exact dropLineEnd_newline content
  · exact dropLineEnd_newline content
  · rename_i hnewline hreturn
    unfold dropLineEnd
    split
    · rename_i cs hcs
      exact absurd hcs (hreturn cs)
    · rename_i cs hcs
      exact absurd hcs (hnewline cs)
    · rfl

/-- Empty text is printed as nothing, behind a tag too. -/
theorem printedText_empty (afterTag : Bool) : printedText afterTag "" = "" := by
  cases afterTag <;> decide

/-- Empty text has no acts. -/
@[simp] theorem literalActs_empty : literalActs machine "" = [] := if_pos rfl

/-! ## Markup -/

/-- The part is text. -/
def Markup.isText : Markup → Bool
  | .text _ => true
  | _ => false

/-- The markup starts with text. -/
def opensWithText : List Markup → Bool
  | [] => false
  | part :: _ => part.isText

/-- Markup without parts does nothing. -/
theorem execMarkup_nil (afterTag : Bool) :
    execMarkup machine (printedText afterTag) "" [] = Exec.skip := by
  rw [execMarkup, printedText_empty, literalActs_empty]
  rfl

/-- What is held back is printed before a tag. -/
theorem execMarkup_cons {part : Markup} (h : part.isText = false) (printed : String → String)
    (held : String) (parts : List Markup) :
    execMarkup machine printed held (part :: parts) =
      (Exec.acting fun _ => literalActs machine (printed held)).andThen
        ((part.exec machine).andThen (execMarkup machine dropLineEnd "" parts)) := by
  match part with
  | .text _ => cases h
  | .comment _ | .host _ | .echo _ | .conditional _ | .loop .. | .existence .. | .flag .. =>
    simp only [execMarkup]

/-- A tag comes first. -/
theorem execMarkup_tag {part : Markup} (h : part.isText = false) (afterTag : Bool)
    (parts : List Markup) : execMarkup machine (printedText afterTag) "" (part :: parts) =
      (part.exec machine).andThen (execMarkup machine (printedText true) "" parts) := by
  rw [execMarkup_cons h, printedText_empty, literalActs_empty]
  exact Exec.skip_andThen _

/-- A text comes first, and no text after it. -/
theorem execMarkup_text (afterTag : Bool) (content : String) {parts : List Markup}
    (h : opensWithText parts = false) :
    execMarkup machine (printedText afterTag) "" (.text content :: parts) =
      (Exec.acting fun _ => literalActs machine (printedText afterTag content)).andThen
        (execMarkup machine (printedText false) "" parts) := by
  rw [execMarkup, String.empty_append]
  match parts with
  | [] => rw [execMarkup_nil, Exec.andThen_skip, execMarkup]
  | part :: parts => rw [execMarkup_tag h, execMarkup_cons h]; rfl

/-- Markup around a tag. -/
theorem execMarkup_append {part : Markup} (h : part.isText = false) (printed : String → String)
    (held : String) (before after : List Markup) :
    execMarkup machine printed held (before ++ part :: after) =
      (execMarkup machine printed held before).andThen
        ((part.exec machine).andThen (execMarkup machine (printedText true) "" after)) := by
  induction before generalizing printed held with
  | nil => rw [List.nil_append, execMarkup_cons h, execMarkup]; rfl
  | cons first before ih =>
    cases htext : first.isText with
    | true =>
      match first with
      | .text content =>
        rw [List.cons_append, execMarkup, execMarkup, ih]
    | false =>
      rw [List.cons_append, execMarkup_cons htext, execMarkup_cons htext, ih, Exec.andThen_assoc,
        Exec.andThen_assoc]

end ViewCompiler.Php
