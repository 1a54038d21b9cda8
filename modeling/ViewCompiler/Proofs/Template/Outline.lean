import ViewCompiler.Proofs.Template.Deduplication

/-!
# What deduplication leaves as it is

Deduplication changes expressions and gives local variables to loops, and nothing else. The outline
of a tree is the tree without these two; it is the same before and after (`outline_dedup`). So
whatever can be read off the outline is the same too.
-/

namespace ViewCompiler.Template

/-! ## Outlines -/

mutual

/-- A node without its expressions and without the local variables of its loops. The content of
slots stays, and so does host code. -/
def Node.outline : Node → Node
  | .echo _ escaped => .echo "" escaped
  | .conditional branches => .conditional (branchesOutline branches)
  | .loop head _ body => .loop { head with collection := "" } [] (outline body)
  | .existence _ body => .existence "" (outline body)
  | .flag kind _ => .flag kind ""
  | .component tag attributes content slots =>
    .component tag (attributes.map (·.mapExpression fun _ => "")) content slots
  | .text content => .text content
  | .comment content => .comment content
  | .host code echo => .host code echo

/-- Nodes without their expressions and without the local variables of their loops. -/
def outline : List Node → List Node
  | [] => []
  | node :: nodes => node.outline :: outline nodes

/-- Branches without their expressions and without the local variables of their loops. -/
def branchesOutline : List Branch → List Branch
  | [] => []
  | ⟨condition, body⟩ :: branches =>
    ⟨condition.map fun _ => "", outline body⟩ :: branchesOutline branches
end

/-- Rewriting an attribute twice is rewriting it by both functions. -/
theorem mapExpression_mapExpression (f g : String → String) (a : Attribute) :
    (a.mapExpression f).mapExpression g = a.mapExpression (g ∘ f) := by
  obtain ⟨bound, name, value⟩ := a
  cases bound <;> simp [Attribute.mapExpression]

section Sites

variable (f : Site → String)

mutual

/-- Rewriting the expressions of a node keeps its outline. -/
theorem Node.outline_mapSites (shadowed : List String) (node : Node) :
    (node.mapSites f shadowed).outline = node.outline := by
  match node with
  | .text _ | .comment _ | .echo .. | .host .. | .flag .. => rfl
  | .conditional branches =>
    exact congrArg Node.conditional (branchesOutline_mapSites shadowed branches)
  | .loop head bindings body =>
    exact congrArg (Node.loop { head with collection := "" } []) (outline_mapSites _ body)
  | .existence expression body =>
    exact congrArg (Node.existence "") (outline_mapSites shadowed body)
  | .component tag attributes content slots =>
    simp only [Node.mapSites, Node.outline, List.map_map]
    congr 2
    exact funext fun a => mapExpression_mapExpression _ _ a

/-- The same of a list of nodes. -/
theorem outline_mapSites (shadowed : List String) (nodes : List Node) :
    outline (mapSites f shadowed nodes) = outline nodes := by
  match nodes with
  | [] => rfl
  | node :: nodes =>
    rw [mapSites, outline, outline, Node.outline_mapSites, outline_mapSites _ nodes]

/-- The same of the branches of a conditional. -/
theorem branchesOutline_mapSites (shadowed : List String) (branches : List Branch) :
    branchesOutline (mapBranchSites f shadowed branches) = branchesOutline branches := by
  match branches with
  | [] => rfl
  | ⟨condition, body⟩ :: branches =>
    rw [mapBranchSites, branchesOutline, branchesOutline, outline_mapSites shadowed body,
      branchesOutline_mapSites shadowed branches, Option.map_map]
    rfl
end

end Sites

/-! ## The passes -/

/-- A round of hoisting keeps the outline. -/
theorem outline_hoistRepeated (wanted : Wanted) (nodes : List Node) (taken : Names) :
    outline (hoistRepeated wanted nodes taken).1 = outline nodes := by
  rw [hoistRepeated_eq]
  exact outline_mapSites _ _ nodes

mutual

/-- Deduplicating the loops of a node keeps its outline. -/
theorem Node.outline_dedupLoops (node : Node) (taken : Names) :
    (node.dedupLoops.run taken).1.outline = node.outline := by
  match node with
  | .text _ | .comment _ | .echo .. | .host .. | .flag .. | .component .. => rfl
  | .conditional branches => exact congrArg Node.conditional (outline_dedupBranches branches taken)
  | .existence expression body =>
    exact congrArg (Node.existence "") (outline_dedupLoops body taken)
  | .loop head bindings body =>
    rw [run_dedupLoops_loop]
    split
    · exact congrArg (Node.loop _ []) (outline_dedupLoops body taken)
    · exact congrArg (Node.loop _ [])
        ((outline_hoistRepeated ..).trans (outline_dedupLoops body taken))

/-- The same of a list of nodes. -/
theorem outline_dedupLoops (nodes : List Node) (taken : Names) :
    outline ((dedupLoops nodes).run taken).1 = outline nodes := by
  match nodes with
  | [] => rfl
  | node :: nodes =>
    rw [run_dedupLoops_cons, outline, outline, Node.outline_dedupLoops, outline_dedupLoops nodes]

/-- The same of the branches of a conditional. -/
theorem outline_dedupBranches (branches : List Branch) (taken : Names) :
    branchesOutline ((dedupBranches branches).run taken).1 = branchesOutline branches := by
  match branches with
  | [] => rfl
  | ⟨condition, body⟩ :: branches =>
    rw [run_dedupBranches_cons, branchesOutline, branchesOutline, outline_dedupLoops body,
      outline_dedupBranches branches]
end

/-- **Deduplication keeps the outline.** -/
theorem outline_dedup (nodes : List Node) (taken : Names) :
    outline ((dedup nodes).run taken).1.1 = outline nodes := by
  rw [run_dedup_eq]
  split
  · exact outline_dedupLoops nodes taken
  · exact (outline_hoistRepeated ..).trans (outline_dedupLoops nodes taken)

end ViewCompiler.Template
