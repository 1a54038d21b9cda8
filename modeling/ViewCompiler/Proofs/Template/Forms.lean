import ViewCompiler.Template.Slot

/-!
# Which trees a form is asked of

What is known of a tree for which a form is picked: an expression is asked of text and
interpolations only, and a mapping of a loop with a flat body and text at most around it.
-/

namespace ViewCompiler.Template

/-! ## Trees with a value -/

/-- The node has a value as an expression. -/
def hasValue (node : Node) : Bool := node.isText || node.isInterpolation

/-- The content of a body that is one interpolation has a value. -/
theorem hasValue_of_isInterpolationAlone {nodes : List Node}
    (h : isInterpolationAlone nodes = true) : ∀ node ∈ content nodes, hasValue node = true := by
  unfold isInterpolationAlone at h
  split at h
  · rename_i node hcontent
    rw [hcontent]
    intro other hother
    rw [List.mem_singleton.mp hother, hasValue, h, Bool.or_true]
  · cases h

/-- All content of a flat body has a value. -/
theorem hasValue_of_isFlat {nodes : List Node} (h : isFlat nodes = true) :
    ∀ node ∈ content nodes, hasValue node = true := by
  intro node hnode
  obtain ⟨hmem, hcomment⟩ := List.mem_filter.mp hnode
  have hflat := List.all_eq_true.mp h node hmem
  revert hflat hcomment
  cases node <;> simp [hasValue, Node.isComment]

/-- An expression is picked as the form of a slot for an interpolation alone. -/
theorem isInterpolationAlone_of_slotForm {body : List Node} (h : slotForm body = .expression) :
    isInterpolationAlone (visible false body) = true ∧ (freeVariables body []).isEmpty = true := by
  unfold slotForm at h
  split at h
  · cases h
  · split at h
    · exact Bool.and_eq_true_iff.mp ‹_›
    · split at h <;> cases h

/-- A string is picked as the form of a slot for text. -/
theorem all_isText_of_slotForm {body : List Node} (h : slotForm body = .literal) :
    body.all Node.isText = true := by
  unfold slotForm at h
  split at h
  · assumption
  · split at h
    · cases h
    · split at h <;> cases h

/-- A node has a value as it is printed only if it is text or an interpolation. -/
theorem isInterpolation_of_hasValue_visible {node : Node} (htext : node.isText = false)
    (h : hasValue node.visible = true) : node.isInterpolation = true ∧ node.visible = node := by
  match node with
  | .echo .. | .host _ true | .component .. => exact ⟨rfl, rfl⟩

/-- A node that is text has its content. -/
theorem exists_text_of_isText {node : Node} (h : node.isText = true) :
    ∃ content, node = .text content := by
  match node with
  | .text content => exact ⟨content, rfl⟩

/-- A node that is a comment has its content. -/
theorem exists_comment_of_isComment {node : Node} (h : node.isComment = true) :
    ∃ content, node = .comment content := by
  match node with
  | .comment content => exact ⟨content, rfl⟩

/-! ## What is printed of a list -/

/-- The content of two lists is that of one and of the other. -/
theorem content_append (nodes others : List Node) :
    content (nodes ++ others) = content nodes ++ content others :=
  List.filter_append nodes others

/-- A text is printed as one text that is not empty, or not at all. -/
theorem visibleText_cases (afterTag : Bool) (text : String) :
    visibleText afterTag text = [] ∨
      ∃ printed, printed ≠ "" ∧ visibleText afterTag text = [.text printed] := by
  unfold visibleText
  generalize (if afterTag then dropLineEnd text else text) = printed
  dsimp only
  split
  · exact .inl rfl
  · exact .inr ⟨printed, ‹_›, rfl⟩

/-- Visible text is text. -/
theorem isText_of_mem_visibleText {node : Node} {afterTag : Bool} {text : String}
    (h : node ∈ visibleText afterTag text) : node.isText = true := by
  rcases visibleText_cases afterTag text with hnone | ⟨printed, -, hprinted⟩
  · rw [hnone] at h
    cases h
  · rw [hprinted] at h
    rw [List.mem_singleton.mp h]
    rfl

/-- The visible content of a list that starts with text. -/
theorem content_visible_text (afterTag : Bool) (text : String) (nodes : List Node) :
    content (visible afterTag (.text text :: nodes)) =
      visibleText afterTag text ++ content (visible false nodes) := by
  have htext : content (visibleText afterTag text) = visibleText afterTag text :=
    List.filter_eq_self.mpr fun node hnode => by
      have hisText := isText_of_mem_visibleText hnode
      cases node <;> first | rfl | cases hisText
  rw [visible, content_append, htext]

/-- A comment is no content, and counts as a tag for the text after it. -/
theorem content_visible_comment (afterTag : Bool) (text : String) (nodes : List Node) :
    content (visible afterTag (.comment text :: nodes)) = content (visible true nodes) := rfl

/-- The visible nodes of a list that starts with a tag. -/
theorem visible_cons {node : Node} (htext : node.isText = false) (afterTag : Bool)
    (nodes : List Node) :
    visible afterTag (node :: nodes) = node.visible :: visible true nodes := by
  match node with
  | .text _ => cases htext
  | .comment _ | .echo .. | .host .. | .conditional _ | .loop .. | .existence .. | .flag ..
  | .component .. => rfl

/-- A node that is neither text nor a comment is printed as one node, and a text after it directly
after a tag. -/
theorem content_visible_cons {node : Node} (htext : node.isText = false)
    (hcomment : node.isComment = false) (afterTag : Bool) (nodes : List Node) :
    content (visible afterTag (node :: nodes)) = node.visible :: content (visible true nodes) := by
  rw [visible_cons htext]
  match node with
  | .text _ => cases htext
  | .comment _ => cases hcomment
  | .echo .. | .host .. | .conditional _ | .loop .. | .existence .. | .flag ..
  | .component .. => rfl

/-! ## Loops that are mapped -/

/-- A body of one text is this text and nothing else. -/
theorem eq_of_soleText? {nodes : List Node} {found : Option String}
    (h : soleText? nodes = some found) :
    nodes = found.toList.map Node.text := by
  unfold soleText? at h
  split at h
  · cases h
    rfl
  · cases h
    rfl
  · cases h

/-- A list split at a loop is what stands before it, the loop and what stands after it. -/
theorem eq_of_splitAtLoop? {nodes before after : List Node} {head : LoopHead}
    {bindings : List Binding} {body : List Node}
    (h : splitAtLoop? nodes = some (before, (head, bindings, body), after)) :
    nodes = before ++ .loop head bindings body :: after := by
  fun_induction splitAtLoop? nodes generalizing before with
  | case1 => cases h
  | case2 => cases h; rfl
  | case3 node nodes _ ih =>
    obtain ⟨⟨before', found, after'⟩, h', heq⟩ := Option.map_eq_some_iff.mp h
    cases heq
    rw [ih h', List.cons_append]

/-- The parts of a tree that is mapped make up its content, and the body of its loop is flat. -/
theorem content_of_mapCandidate? {nodes : List Node} {c : MapCandidate}
    (h : mapCandidate? nodes = some c) :
    content nodes = c.before.toList.map Node.text ++
      .loop c.head c.bindings c.body :: c.after.toList.map Node.text ∧ isFlat c.body = true := by
  obtain ⟨⟨before, ⟨head, bindings, body⟩, after⟩, hsplit, h⟩ := Option.bind_eq_some_iff.mp h
  obtain ⟨before', hbefore, h⟩ := Option.bind_eq_some_iff.mp h
  obtain ⟨after', hafter, h⟩ := Option.bind_eq_some_iff.mp h
  split at h
  · rename_i hflat
    cases h
    rw [eq_of_splitAtLoop? hsplit, eq_of_soleText? hbefore, eq_of_soleText? hafter]
    exact ⟨rfl, (Bool.and_eq_true_iff.mp hflat).1⟩
  · cases h

/-- The loop that is mapped is a loop of the tree, and its body is printed after a tag. -/
theorem exists_loop_of_content {afterTag : Bool} {nodes before after : List Node} {head : LoopHead}
    {bindings : List Binding} {body : List Node} (hbefore : ∀ node ∈ before, node.isText = true)
    (h : content (visible afterTag nodes) = before ++ .loop head bindings body :: after) :
    ∃ first inner last, nodes = first ++ .loop head bindings inner :: last ∧
      body = visible true inner ∧ content (visible afterTag first) = before ∧
      content (visible true last) = after := by
  induction nodes generalizing afterTag before with
  | nil => exact absurd h.symm (List.append_ne_nil_of_right_ne_nil _ (List.cons_ne_nil _ _))
  | cons node nodes ih =>
    cases htext : node.isText with
    | true =>
      match node with
      | .text text =>
        rw [content_visible_text] at h
        obtain ⟨printed, hprinted⟩ : ∃ printed, visibleText afterTag text ++ printed = before := by
          rcases List.append_eq_append_iff.mp h with ⟨rest, hrest, -⟩ | ⟨rest, hrest, hloop⟩
          · exact ⟨rest, hrest.symm⟩
          · match rest with
            | [] => exact ⟨[], by rw [hrest, List.append_nil, List.append_nil]⟩
            | other :: rest =>
              have hmem : other ∈ visibleText afterTag text := by simp [hrest]
              have hother := isText_of_mem_visibleText hmem
              rw [← (List.cons.inj hloop).1] at hother
              cases hother
        rw [← hprinted, List.append_assoc] at h
        obtain ⟨first, inner, last, rfl, hbody, hfirst, hlast⟩ :=
          ih (fun node hnode => hbefore node (hprinted ▸ List.mem_append_right _ hnode))
            (List.append_cancel_left h)
        exact ⟨.text text :: first, inner, last, rfl, hbody,
          by rw [content_visible_text, hfirst, hprinted], hlast⟩
    | false =>
      cases hcomment : node.isComment with
      | true =>
        match node with
        | .comment text =>
          rw [content_visible_comment] at h
          obtain ⟨first, inner, last, rfl, hbody, hfirst, hlast⟩ := ih hbefore h
          exact ⟨.comment text :: first, inner, last, rfl, hbody, hfirst, hlast⟩
      | false =>
        rw [content_visible_cons htext hcomment] at h
        match before with
        | [] =>
          obtain ⟨hnode, hlast⟩ := List.cons.inj h
          match node with
          | .loop _ _ inner =>
            obtain ⟨rfl, rfl, rfl⟩ := Node.loop.inj hnode
            exact ⟨[], inner, nodes, rfl, rfl, rfl, hlast⟩
        | printed :: before =>
          have hprinted := hbefore printed List.mem_cons_self
          rw [← (List.cons.inj h).1] at hprinted
          match node with
          | .text _ => cases htext
          | .comment _ | .echo .. | .host .. | .conditional _ | .loop .. | .existence .. | .flag ..
          | .component .. => cases hprinted

/-! ## Forms of units -/

/-- The forms that are written as one expression are chosen for content that has a value. -/
theorem hasValue_of_strategy {nodes : List Node} {free : List String} {bindings : List Binding}
    (h : strategy nodes free bindings = .direct ∨ strategy nodes free bindings = .concatenation) :
    ∀ node ∈ content (visible false nodes), hasValue node = true := by
  unfold strategy at h
  dsimp only at h
  split at h
  · exact hasValue_of_isInterpolationAlone (Bool.and_eq_true_iff.mp ‹_›).2
  · split at h
    · rcases h with h | h <;> cases h
    · split at h
      · exact hasValue_of_isFlat ‹_›
      · rcases h with h | h <;> cases h

/-- A mapping is chosen only where there is a loop to map over. -/
theorem exists_mapCandidate?_of_strategy {nodes : List Node} {free : List String}
    {bindings : List Binding} (h : strategy nodes free bindings = .mapping) :
    ∃ candidate, mapCandidate? (visible false nodes) = some candidate := by
  unfold strategy at h
  dsimp only at h
  split at h
  · cases h
  · split at h
    · exact Option.isSome_iff_exists.mp ‹_›
    · split at h <;> cases h

end ViewCompiler.Template
