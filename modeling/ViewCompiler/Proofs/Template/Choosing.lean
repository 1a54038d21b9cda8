import ViewCompiler.Proofs.Template.DedupReads
import ViewCompiler.Proofs.Template.Forms
import ViewCompiler.Template.Strategy

/-!
# Deduplication does not change the form

The form of a unit is chosen after deduplication, but for the free variables that the tree had
before it. It is the form that the tree itself would get (`strategy_dedup`). All that is asked of a
tree can be read off its outline (`strategy_outline`), so only the variables that are bound ahead
of the tree could make a difference, to a tree without free variables that is one interpolation.
Such a tree has no loop, so what is bound ahead of it would read a free variable of it.
-/

namespace ViewCompiler.Template

open Expression

/-! ## What is asked of a tree -/

/-- The outline of a node is text exactly when the node is. -/
theorem Node.outline_isText (node : Node) : node.outline.isText = node.isText := by
  cases node <;> rfl

/-- The outline of a node is a comment exactly when the node is. -/
theorem Node.outline_isComment (node : Node) : node.outline.isComment = node.isComment := by
  cases node <;> rfl

/-- The outline of a node is an interpolation exactly when the node is. -/
theorem Node.outline_isInterpolation (node : Node) :
    node.outline.isInterpolation = node.isInterpolation := by
  cases node <;> rfl

/-- The outline of a list is that of each node. -/
theorem outline_eq_map (nodes : List Node) : outline nodes = nodes.map Node.outline := by
  induction nodes with
  | nil => rfl
  | cons node nodes ih => rw [outline, List.map_cons, ih]

/-- The outline of two lists is that of one and of the other. -/
theorem outline_append (nodes others : List Node) :
    outline (nodes ++ others) = outline nodes ++ outline others := by
  rw [outline_eq_map, outline_eq_map, outline_eq_map, List.map_append]

/-- Visible text is its own outline. -/
theorem outline_visibleText (afterTag : Bool) (text : String) :
    outline (visibleText afterTag text) = visibleText afterTag text := by
  rcases visibleText_cases afterTag text with hnone | ⟨printed, -, hprinted⟩
  · rw [hnone]
    rfl
  · rw [hprinted]
    rfl

mutual

/-- Making a node visible and outlining it can be exchanged. -/
theorem Node.outline_visible (node : Node) : node.visible.outline = node.outline.visible := by
  match node with
  | .text _ | .comment _ | .echo .. | .host .. | .flag .. | .component .. => rfl
  | .conditional branches => exact congrArg Node.conditional (branchesOutline_visible branches)
  | .loop head bindings body =>
    exact congrArg (Node.loop { head with collection := "" } []) (outline_visible true body)
  | .existence expression body =>
    exact congrArg (Node.existence "") (outline_visible true body)

/-- What is printed of the outline is the outline of what is printed. -/
theorem outline_visible (afterTag : Bool) (nodes : List Node) :
    outline (visible afterTag nodes) = visible afterTag (outline nodes) := by
  match nodes with
  | [] => rfl
  | node :: nodes =>
    cases htext : node.isText with
    | true =>
      obtain ⟨text, rfl⟩ := exists_text_of_isText htext
      rw [visible, outline_append, outline_visibleText, outline_visible false nodes]
      rfl
    | false =>
      rw [visible_cons htext, outline, outline, visible_cons (node.outline_isText.trans htext),
        node.outline_visible, outline_visible true nodes]

/-- The same of the branches of a conditional. -/
theorem branchesOutline_visible (branches : List Branch) :
    branchesOutline (visibleBranches branches) = visibleBranches (branchesOutline branches) := by
  match branches with
  | [] => rfl
  | ⟨condition, body⟩ :: branches =>
    rw [visibleBranches, branchesOutline, branchesOutline, visibleBranches,
      outline_visible true body, branchesOutline_visible branches]
end

/-- Whether a body is flat shows in its outline. -/
theorem isFlat_outline (nodes : List Node) : isFlat (outline nodes) = isFlat nodes := by
  rw [isFlat, isFlat, outline_eq_map, List.all_map]
  congr 1
  funext node
  simp only [Function.comp, Node.outline_isText, Node.outline_isComment,
    Node.outline_isInterpolation]

/-- The content of an outline is the outline of the content. -/
theorem content_outline (nodes : List Node) :
    content (outline nodes) = outline (content nodes) := by
  rw [outline_eq_map, outline_eq_map, content, content, List.filter_map]
  congr 2
  funext node
  simp only [Function.comp, Node.outline_isComment]

/-- Whether a body is one interpolation shows in its outline. -/
theorem isInterpolationAlone_outline (nodes : List Node) :
    isInterpolationAlone (outline nodes) = isInterpolationAlone nodes := by
  unfold isInterpolationAlone
  rw [content_outline]
  match content nodes with
  | [] => rfl
  | [node] => exact node.outline_isInterpolation
  | _ :: _ :: _ => rfl

/-- The outline keeps the one text a body consists of. -/
theorem soleText?_outline (nodes : List Node) : soleText? (outline nodes) = soleText? nodes := by
  match nodes with
  | [] => rfl
  | [node] => cases node <;> rfl
  | node :: _ :: _ => cases node <;> rfl

/-- The loop of the outline is the outline of the loop. -/
theorem splitAtLoop?_outline (nodes : List Node) :
    splitAtLoop? (outline nodes) = (splitAtLoop? nodes).map fun found =>
      (outline found.1, ({ found.2.1.1 with collection := "" }, [], outline found.2.1.2.2),
        outline found.2.2) := by
  match nodes with
  | [] => rfl
  | .loop .. :: _ => rfl
  | .text _ :: nodes | .comment _ :: nodes | .echo .. :: nodes | .host .. :: nodes
  | .conditional _ :: nodes | .existence .. :: nodes | .flag .. :: nodes
  | .component .. :: nodes =>
    rw [outline]
    show Option.map _ (splitAtLoop? (outline nodes)) = Option.map _ (Option.map _ _)
    rw [splitAtLoop?_outline nodes, Option.map_map, Option.map_map]
    rfl

/-- Whether a body can be a mapping shows in its outline. -/
theorem isSome_mapCandidate?_outline (nodes : List Node) :
    (mapCandidate? (outline nodes)).isSome = (mapCandidate? nodes).isSome := by
  have hany : ∀ body : List Node,
      (outline body).any Node.isInterpolation = body.any Node.isInterpolation := by
    intro body
    rw [outline_eq_map, List.any_map]
    congr 1
    funext node
    exact node.outline_isInterpolation
  unfold mapCandidate?
  rw [content_outline, splitAtLoop?_outline]
  rcases splitAtLoop? (content nodes) with _ | ⟨before, ⟨head, bindings, body⟩, after⟩
  · rfl
  · simp only [Option.map_some, Option.bind_eq_bind, Option.bind_some, soleText?_outline,
      isFlat_outline, hany]
    cases soleText? before with
    | none => rfl
    | some before =>
      cases soleText? after with
      | none => rfl
      | some after =>
        simp only [Option.bind_some]
        split <;> rfl

/-- **The form of a unit is read off the outline** of its tree, and the variables. -/
theorem strategy_outline (nodes : List Node) (free : List String) (bindings : List Binding) :
    strategy (outline nodes) free bindings = strategy nodes free bindings := by
  unfold strategy
  simp only [← outline_visible, isInterpolationAlone_outline, isSome_mapCandidate?_outline,
    isFlat_outline]

/-! ## One interpolation -/

/-- A body that is one interpolation is flat. -/
theorem isFlat_of_isInterpolationAlone {nodes : List Node}
    (h : isInterpolationAlone nodes = true) :
    isFlat nodes = true := by
  refine List.all_eq_true.mpr fun node hnode => ?_
  cases hcomment : node.isComment with
  | true => simp
  | false =>
    have hvalue := hasValue_of_isInterpolationAlone h node
      (List.mem_filter.mpr ⟨hnode, by rw [hcomment]; rfl⟩)
    rwa [Bool.or_false]

/-- A tree is flat if what is printed of it is. -/
theorem isFlat_of_visible {afterTag : Bool} {nodes : List Node}
    (h : isFlat (visible afterTag nodes) = true) : isFlat nodes = true := by
  induction nodes generalizing afterTag with
  | nil => rfl
  | cons node nodes ih =>
    cases htext : node.isText with
    | true =>
      obtain ⟨text, rfl⟩ := exists_text_of_isText htext
      rw [visible, isFlat, List.all_append, Bool.and_eq_true] at h
      exact ih h.2
    | false =>
      rw [visible_cons htext, isFlat, List.all_cons, Bool.and_eq_true] at h
      refine Bool.and_eq_true_iff.mpr ⟨?_, ih h.2⟩
      cases node <;> exact h.1

/-- A flat tree has no loops, so there is nothing to bind in them. -/
theorem dedupLoops_of_isFlat {nodes : List Node} (h : isFlat nodes = true) (taken : Names) :
    (dedupLoops nodes).run taken = (nodes, taken) ∧ localNames nodes = [] := by
  induction nodes with
  | nil => exact ⟨rfl, rfl⟩
  | cons node nodes ih =>
    obtain ⟨hnode, hnodes⟩ := Bool.and_eq_true_iff.mp h
    obtain ⟨hrun, hlocal⟩ := ih hnodes
    have hsame : node.dedupLoops.run taken = (node, taken) ∧ node.localNames = [] := by
      cases node <;> first | exact ⟨rfl, rfl⟩ | cases hnode
    rw [run_dedupLoops_cons, hsame.1, hrun, localNames, hsame.2, hlocal]
    exact ⟨rfl, rfl⟩

/-- **What is bound ahead of a flat tree reads a free variable of it.** -/
theorem exists_free_of_mem_dedup {nodes : List Node} (h : isFlat nodes = true) {taken : Names}
    {b : Binding} (hb : b ∈ ((dedup nodes).run taken).1.2) :
    ∃ x ∈ freeVariables nodes [], x ∈ mentioned b.value := by
  obtain ⟨hrun, hlocal⟩ := dedupLoops_of_isFlat h taken
  rw [run_dedup_eq, hrun] at hb
  split at hb
  · cases hb
  · rw [hoistRepeated_eq] at hb
    obtain ⟨k, hk, rfl⟩ := List.mem_map.mp hb
    obtain ⟨hmem, -⟩ := List.mem_filter.mp (call_mem_repeated hk)
    refine ⟨String.ofList k.call.name, mem_freeVariables.mpr ?_, ?_⟩
    · refine mem_reads_of_mem_freeCalls (List.mem_eraseDups.mp hmem) ?_
      rw [hlocal]
      exact List.not_mem_nil
    · rw [Hoist.binding, mentioned_call (readable_of_mem_roundHoists hk)]
      exact List.mem_singleton_self _

/-- Nothing is bound ahead of an interpolation without free variables. -/
theorem bindings_dedup_eq_nil {nodes : List Node} (hfree : freeVariables nodes [] = [])
    (halone : isInterpolationAlone (visible false nodes) = true) (taken : Names) :
    ((dedup nodes).run taken).1.2 = [] := by
  refine List.eq_nil_iff_forall_not_mem.mpr fun b hb => ?_
  obtain ⟨x, hx, -⟩ :=
    exists_free_of_mem_dedup (isFlat_of_visible (isFlat_of_isInterpolationAlone halone)) hb
  rw [hfree] at hx
  cases hx

/-! ## Every tree -/

/-- **A tree gets the same form before and after deduplication**, whatever is bound ahead of it,
and nothing is bound ahead of an interpolation without free variables. -/
theorem strategy_dedup (nodes : List Node) (taken : Names) :
    strategy ((dedup nodes).run taken).1.1 (freeVariables nodes []) ((dedup nodes).run taken).1.2 =
        strategy nodes (freeVariables nodes []) [] ∧
      (freeVariables nodes [] = [] → isInterpolationAlone (visible false nodes) = true →
        ((dedup nodes).run taken).1.2 = []) := by
  refine ⟨?_, fun hfree halone => bindings_dedup_eq_nil hfree halone taken⟩
  rw [← strategy_outline, outline_dedup, strategy_outline]
  by_cases hdirect :
    freeVariables nodes [] = [] ∧ isInterpolationAlone (visible false nodes) = true
  · rw [bindings_dedup_eq_nil hdirect.1 hdirect.2]
  · -- Without these two the variables ahead of the tree are not looked at.
    have hnot : ∀ bindings : List Binding, ((freeVariables nodes []).isEmpty && bindings.isEmpty &&
        isInterpolationAlone (visible false nodes)) = false := by
      intro bindings
      cases hfree : (freeVariables nodes []).isEmpty with
      | false => rfl
      | true =>
        cases halone : isInterpolationAlone (visible false nodes) with
        | false => exact Bool.and_false _
        | true => exact absurd ⟨List.isEmpty_iff.mp hfree, halone⟩ hdirect
    simp only [strategy, hnot]

/-- An interpolation that holds what calls look like, but in its literals only. -/
def literalEcho : List Node :=
  [.comment "c", .text "\n", .echo "'data_get($u, ' . \"data_get(\\$u, 'n')\"" true]

/-- Nothing is bound ahead of literals. -/
theorem bindings_dedup_literalEcho :
    freeVariables literalEcho [] = [] ∧ isInterpolationAlone (visible false literalEcho) = true ∧
      ((dedup literalEcho).run []).1.2 = [] := by
  have hfree : freeVariables literalEcho [] = [] := by decide +kernel
  have halone : isInterpolationAlone (visible false literalEcho) = true := by decide +kernel
  exact ⟨hfree, halone, (strategy_dedup literalEcho []).2 hfree halone⟩

end ViewCompiler.Template
