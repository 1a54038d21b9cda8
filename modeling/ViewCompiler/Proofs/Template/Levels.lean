import Mathlib.Data.List.Chain
import ViewCompiler.Proofs.Template.Forms

/-!
# Text at every level of a tree

The levels of a tree are its list of nodes, the bodies of its nodes, and the contents of its slots,
at any depth. Taking line ends away leaves no empty text and brings no text beside text at any of
them (`textsApart_visible_levels`): a text that vanishes stood between nodes that stay.
-/

namespace ViewCompiler.Template

/-! ## Levels -/

mutual

/-- The bodies and the contents of slots inside a node, at any depth. -/
def Node.inner : Node → List (List Node)
  | .conditional branches => branchLevels branches
  | .loop _ _ body => body :: inner body
  | .existence _ body => body :: inner body
  | .component _ _ content slots => content :: inner content ++ slotLevels slots
  | _ => []

/-- The bodies and the contents of slots inside nodes, at any depth. -/
def inner : List Node → List (List Node)
  | [] => []
  | node :: nodes => node.inner ++ inner nodes

/-- The bodies of branches and what is inside of them. -/
def branchLevels : List Branch → List (List Node)
  | [] => []
  | ⟨_, body⟩ :: branches => body :: inner body ++ branchLevels branches

/-- The contents of named slots and what is inside of them. -/
def slotLevels : List NamedSlot → List (List Node)
  | [] => []
  | ⟨_, body⟩ :: slots => body :: inner body ++ slotLevels slots
end

/-- The nodes and all that is inside of them. -/
def levels (nodes : List Node) : List (List Node) := nodes :: inner nodes

/-- The levels inside two lists are those inside one and inside the other. -/
theorem inner_append (nodes others : List Node) :
    inner (nodes ++ others) = inner nodes ++ inner others := by
  induction nodes with
  | nil => rfl
  | cons node nodes ih => rw [List.cons_append, inner, inner, ih, List.append_assoc]

/-! ## Text -/

/-- No text among the nodes is empty, and none stands directly beside another. -/
structure TextsApart (nodes : List Node) : Prop where
  ne_empty : ∀ content, .text content ∈ nodes → content ≠ ""
  apart : nodes.IsChain fun node next => node.isText = true → next.isText = false

/-- Texts that are apart in a list are apart in its rest. -/
theorem TextsApart.of_cons {node : Node} {nodes : List Node} (h : TextsApart (node :: nodes)) :
    TextsApart nodes :=
  ⟨fun content hcontent => h.ne_empty content (List.mem_cons_of_mem node hcontent),
    (List.isChain_cons.mp h.apart).2⟩

/-- Behind a text stands no other one. -/
theorem TextsApart.next {node next : Node} {nodes : List Node} (h : TextsApart (node :: nodes))
    (hnext : next ∈ nodes.head?) (htext : node.isText = true) : next.isText = false :=
  (List.isChain_cons.mp h.apart).1 next hnext htext

/-- A node may be put in front of texts that are apart, if it is no empty text and not beside
another. -/
theorem textsApart_cons {node : Node} {nodes : List Node}
    (hempty : ∀ content, node = .text content → content ≠ "")
    (hnext : node.isText = true → ∀ next ∈ nodes.head?, next.isText = false)
    (h : TextsApart nodes) : TextsApart (node :: nodes) := by
  refine ⟨fun content hcontent => ?_, List.isChain_cons.mpr ⟨fun next hmem htext =>
    hnext htext next hmem, h.apart⟩⟩
  rcases List.mem_cons.mp hcontent with heq | hcontent
  · exact hempty content heq.symm
  · exact h.ne_empty content hcontent

/-- A node that is no text stays no text. -/
theorem Node.isText_visible (node : Node) : node.visible.isText = node.isText := by
  cases node <;> rfl

/-- What is printed of nodes that start with no text starts with none. -/
theorem isText_of_head?_visible {afterTag : Bool} {nodes : List Node}
    (h : ∀ node ∈ nodes.head?, node.isText = false) :
    ∀ node ∈ (visible afterTag nodes).head?, node.isText = false := by
  cases nodes with
  | nil => exact fun _ hnode => nomatch hnode
  | cons node nodes =>
    have htext := h node rfl
    intro other hother
    rw [visible_cons htext] at hother
    obtain rfl := Option.some.inj hother
    rw [node.isText_visible, htext]

/-- Nodes without text beside text are printed without empty text and text beside text. -/
theorem TextsApart.visible {nodes : List Node} (h : TextsApart nodes) (afterTag : Bool) :
    TextsApart (visible afterTag nodes) := by
  induction nodes generalizing afterTag with
  | nil => exact h
  | cons node nodes ih =>
    cases htext : node.isText with
    | true =>
      obtain ⟨text, rfl⟩ := exists_text_of_isText htext
      have hrest := ih h.of_cons false
      rw [Template.visible]
      rcases visibleText_cases afterTag text with hnone | ⟨printed, hempty, hprinted⟩
      · rwa [hnone]
      · rw [hprinted]
        refine textsApart_cons (fun content heq => ?_) (fun _ => ?_) hrest
        · rwa [← Node.text.inj heq]
        · exact isText_of_head?_visible fun next hnext => h.next hnext rfl
    | false =>
      rw [visible_cons htext]
      refine textsApart_cons (fun content heq => ?_) (fun hvisible => ?_) (ih h.of_cons true)
      · have hcontent := node.isText_visible.symm.trans (congrArg Node.isText heq)
        rw [htext] at hcontent
        cases hcontent
      · rw [node.isText_visible, htext] at hvisible
        cases hvisible

mutual

/-- A level inside a visible node is one of the node, as it was or made visible. -/
theorem Node.mem_inner_visible {node : Node} {level : List Node} (h : level ∈ node.visible.inner) :
    ∃ old ∈ node.inner, level = old ∨ level = visible true old := by
  match node with
  | .text _ | .comment _ | .echo .. | .host .. | .flag .. => cases h
  | .component .. => exact ⟨level, h, .inl rfl⟩
  | .conditional branches => exact mem_branchLevels_visible h
  | .loop _ _ body | .existence _ body =>
    rcases List.mem_cons.mp h with rfl | h
    · exact ⟨body, List.mem_cons_self, .inr rfl⟩
    · obtain ⟨old, hold, heq⟩ := mem_inner_visible h
      exact ⟨old, List.mem_cons_of_mem _ hold, heq⟩

/-- What is inside of a tree as it is printed is what was inside of it before, as it is printed
directly after a tag if it is a body. -/
theorem mem_inner_visible {afterTag : Bool} {nodes : List Node} {level : List Node}
    (h : level ∈ inner (visible afterTag nodes)) :
    ∃ old ∈ inner nodes, level = old ∨ level = visible true old := by
  match nodes with
  | [] => cases h
  | node :: nodes =>
    cases htext : node.isText with
    | true =>
      obtain ⟨text, rfl⟩ := exists_text_of_isText htext
      have hnone : inner (visibleText afterTag text) = [] := by
        rcases visibleText_cases afterTag text with hnone | ⟨printed, -, hprinted⟩
        · rw [hnone]
          rfl
        · rw [hprinted]
          rfl
      rw [visible, inner_append, hnone] at h
      obtain ⟨old, hold, heq⟩ := mem_inner_visible h
      exact ⟨old, hold, heq⟩
    | false =>
      rw [visible_cons htext] at h
      rcases List.mem_append.mp h with h | h
      · obtain ⟨old, hold, heq⟩ := node.mem_inner_visible h
        exact ⟨old, List.mem_append_left _ hold, heq⟩
      · obtain ⟨old, hold, heq⟩ := mem_inner_visible h
        exact ⟨old, List.mem_append_right _ hold, heq⟩

/-- The same of the branches of a conditional. -/
theorem mem_branchLevels_visible {branches : List Branch} {level : List Node}
    (h : level ∈ branchLevels (visibleBranches branches)) :
    ∃ old ∈ branchLevels branches, level = old ∨ level = visible true old := by
  match branches with
  | [] => cases h
  | ⟨_, body⟩ :: branches =>
    rcases List.mem_append.mp h with h | h
    · rcases List.mem_cons.mp h with rfl | h
      · exact ⟨body, List.mem_append_left _ List.mem_cons_self, .inr rfl⟩
      · obtain ⟨old, hold, heq⟩ := mem_inner_visible h
        exact ⟨old, List.mem_append_left _ (List.mem_cons_of_mem _ hold), heq⟩
    · obtain ⟨old, hold, heq⟩ := mem_branchLevels_visible h
      exact ⟨old, List.mem_append_right _ hold, heq⟩
end

/-- **Taking line ends away leaves no empty text and no text beside text**, at any level. -/
theorem textsApart_visible_levels {nodes : List Node}
    (h : ∀ level ∈ levels nodes, TextsApart level)
    (afterTag : Bool) : ∀ level ∈ levels (visible afterTag nodes), TextsApart level := by
  intro level hlevel
  obtain ⟨hnodes, hinner⟩ := List.forall_mem_cons.mp h
  rcases List.mem_cons.mp hlevel with rfl | hlevel
  · exact hnodes.visible afterTag
  · obtain ⟨old, hold, rfl | rfl⟩ := mem_inner_visible hlevel
    · exact hinner _ hold
    · exact (hinner old hold).visible true

end ViewCompiler.Template
