import ViewCompiler.Proofs.Template.Nesting

/-!
# Tidy trees

Where a tree is written in two forms that print the same, no text stands directly beside text: of
two texts after a tag the second would be taken for the start of the markup's text. `Tidy law` says
this of a tree outside of its slots, and that its host code obeys a law there. Both can be read off
the outline, so deduplication keeps a tree tidy (`tidy_dedup`), and so does trimming the content of
a slot (`tidy_trimSlot`).
-/

namespace ViewCompiler.Template

/-! ## Text beside text -/

/-- The nodes start with text. -/
def startsWithText : List Node → Bool
  | .text _ :: _ => true
  | _ => false

/-- A list starts with text if its first node is text. -/
theorem startsWithText_cons (node : Node) (nodes : List Node) :
    startsWithText (node :: nodes) = node.isText := by
  cases node <;> rfl

section Tidy

variable (law : String → Bool → Prop)

mutual

/-- In the node no text stands beside text and host code obeys the law, outside of slots. -/
def Node.Tidy : Node → Prop
  | .host code echo => law code echo
  | .conditional branches => BranchesTidy branches
  | .loop _ _ body => Tidy body
  | .existence _ body => Tidy body
  | _ => True

/-- No text stands beside text and host code obeys the law, outside of slots. -/
def Tidy : List Node → Prop
  | [] => True
  | node :: nodes => node.Tidy ∧ (node.isText = true → startsWithText nodes = false) ∧ Tidy nodes

/-- In the branches no text stands beside text and host code obeys the law, outside of slots. -/
def BranchesTidy : List Branch → Prop
  | [] => True
  | ⟨_, body⟩ :: branches => Tidy body ∧ BranchesTidy branches
end

end Tidy

variable {law : String → Bool → Prop}

/-- Both parts of a tidy list are tidy. -/
theorem Tidy.of_append {nodes others : List Node} (h : Tidy law (nodes ++ others)) :
    Tidy law nodes ∧ Tidy law others := by
  induction nodes with
  | nil => exact ⟨trivial, h⟩
  | cons node nodes ih =>
    obtain ⟨hnode, htext, hrest⟩ := h
    refine ⟨⟨hnode, fun hisText => ?_, (ih hrest).1⟩, (ih hrest).2⟩
    match nodes with
    | [] => rfl
    | next :: nodes =>
      rw [startsWithText_cons, ← startsWithText_cons next (nodes ++ others)]
      exact htext hisText

/-! ## Deduplication -/

/-- The outline of a list starts with text exactly when the list does. -/
theorem startsWithText_outline (nodes : List Node) :
    startsWithText (outline nodes) = startsWithText nodes := by
  cases nodes with
  | nil => rfl
  | cons node nodes =>
    rw [outline, startsWithText_cons, startsWithText_cons]
    cases node <;> rfl

mutual

/-- A node is tidy exactly when its outline is. -/
theorem Node.tidy_outline (node : Node) : node.outline.Tidy law ↔ node.Tidy law := by
  match node with
  | .text _ | .comment _ | .echo .. | .host .. | .flag .. | .component .. => exact Iff.rfl
  | .conditional branches => exact branchesTidy_outline branches
  | .loop _ _ body => exact tidy_outline body
  | .existence _ body => exact tidy_outline body

/-- A tree is tidy if its outline is. -/
theorem tidy_outline (nodes : List Node) : Tidy law (outline nodes) ↔ Tidy law nodes := by
  match nodes with
  | [] => exact Iff.rfl
  | node :: nodes =>
    have htext : node.outline.isText = node.isText := by cases node <;> rfl
    rw [outline, Tidy, Tidy, node.tidy_outline, htext, startsWithText_outline, tidy_outline nodes]

/-- The same of the branches of a conditional. -/
theorem branchesTidy_outline (branches : List Branch) :
    BranchesTidy law (branchesOutline branches) ↔ BranchesTidy law branches := by
  match branches with
  | [] => exact Iff.rfl
  | ⟨_, body⟩ :: branches =>
    rw [branchesOutline, BranchesTidy, BranchesTidy, tidy_outline body,
      branchesTidy_outline branches]
end

/-- Deduplication keeps a tree tidy. -/
theorem tidy_dedup {nodes : List Node} (h : Tidy law nodes) (taken : Names) :
    Tidy law ((dedup nodes).run taken).1.1 := by
  rw [← tidy_outline, outline_dedup, tidy_outline]
  exact h

/-! ## Trimming -/

/-- Trimming the first text keeps a list tidy. -/
theorem tidy_trimFirst {nodes : List Node} (h : Tidy law nodes) : Tidy law (trimFirst nodes) := by
  fun_cases trimFirst nodes with
  | case1 => exact h
  | case2 => exact h

/-- Trimming the last text keeps what a list starts with. -/
theorem startsWithText_trimLast (nodes : List Node) :
    startsWithText (trimLast nodes) = startsWithText nodes := by
  fun_cases trimLast nodes with
  | case1 => rfl
  | case2 => rfl
  | case3 => rw [startsWithText_cons, startsWithText_cons]

/-- Trimming the last text keeps a list tidy. -/
theorem tidy_trimLast {nodes : List Node} (h : Tidy law nodes) : Tidy law (trimLast nodes) := by
  fun_induction trimLast nodes with
  | case1 => exact h
  | case2 => exact h
  | case3 node nodes _ ih =>
    refine ⟨h.1, ?_, ih h.2.2⟩
    rw [startsWithText_trimLast]
    exact h.2.1

/-- Text that is left out stands beside no text. -/
theorem tidy_filter {nodes : List Node} (h : Tidy law nodes) :
    Tidy law (nodes.filter (!·.isEmptyText)) := by
  induction nodes with
  | nil => exact h
  | cons node nodes ih =>
    obtain ⟨hnode, htext, hnodes⟩ := h
    rw [List.filter_cons]
    split
    · refine ⟨hnode, fun hisText => ?_, ih hnodes⟩
      match nodes with
      | [] => rfl
      | next :: nodes =>
        have hnext : next.isText = false := by
          rw [← startsWithText_cons next nodes]
          exact htext hisText
        have hkept : (!next.isEmptyText) = true := by
          cases next <;> first | rfl | cases hnext
        rw [List.filter_cons, if_pos hkept, startsWithText_cons, hnext]
    · exact ih hnodes

/-- Trimming the content of a slot keeps it tidy. -/
theorem tidy_trimSlot {nodes : List Node} (h : Tidy law nodes) : Tidy law (trimSlot nodes) :=
  tidy_filter (tidy_trimLast (tidy_trimFirst h))

end ViewCompiler.Template
