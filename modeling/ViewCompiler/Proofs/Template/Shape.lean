import ViewCompiler.Proofs.Template.Hoisting

/-!
# The shape of a tree and its expressions

The shape of a tree is all of it but its expressions: text, comments and host code, the names of
loops and of their local variables, attributes that are not bound, and the slots. A change of the
expressions keeps the shape (`shape_mapSites`), and the shape and the expressions make up the tree
(`eq_of_shape_of_expressions`).
-/

namespace ViewCompiler.Template

/-! ## Shapes -/

mutual

/-- A node without its expressions. Slots are trees of their own and stay. -/
def Node.shape : Node → Node
  | .text content => .text content
  | .comment content => .comment content
  | .echo _ escaped => .echo "" escaped
  | .host code echo => .host code echo
  | .conditional branches => .conditional (branchesShape branches)
  | .loop head bindings body =>
    .loop { head with collection := "" } (bindings.map fun b => ⟨b.name, ""⟩) (shape body)
  | .existence _ body => .existence "" (shape body)
  | .flag kind _ => .flag kind ""
  | .component tag attributes content slots =>
    .component tag (attributes.map (·.mapExpression fun _ => "")) content slots

/-- Nodes without their expressions. -/
def shape : List Node → List Node
  | [] => []
  | node :: nodes => node.shape :: shape nodes

/-- Branches without their expressions. -/
def branchesShape : List Branch → List Branch
  | [] => []
  | ⟨condition, body⟩ :: branches =>
    ⟨condition.map fun _ => "", shape body⟩ :: branchesShape branches
end

/-- An attribute without its expression is the same after rewriting it. -/
theorem mapExpression_const (f : String → String) (a : Attribute) :
    (a.mapExpression f).mapExpression (fun _ => "") = a.mapExpression fun _ => "" := by
  obtain ⟨bound, name, value⟩ := a
  cases bound <;> cases value <;> rfl

section MapSites

variable (f : Site → String)

mutual

/-- Rewriting the expressions of a node keeps its shape. -/
theorem Node.shape_mapSites (shadowed : List String) (node : Node) :
    (node.mapSites f shadowed).shape = node.shape := by
  match node with
  | .text _ | .comment _ | .echo .. | .host .. | .flag .. => rfl
  | .conditional branches =>
    exact congrArg Node.conditional (branchesShape_mapSites shadowed branches)
  | .loop head bindings body =>
    rw [Node.mapSites, Node.shape, Node.shape, shape_mapSites, List.map_map]
    rfl
  | .existence expression body =>
    exact congrArg (Node.existence "") (shape_mapSites shadowed body)
  | .component tag attributes content slots =>
    rw [Node.mapSites, Node.shape, Node.shape, List.map_map]
    congr 2
    exact funext fun a => mapExpression_const _ a

/-- A change of the expressions keeps the shape. -/
theorem shape_mapSites (shadowed : List String) (nodes : List Node) :
    shape (mapSites f shadowed nodes) = shape nodes := by
  match nodes with
  | [] => rfl
  | node :: nodes => rw [mapSites, shape, shape, Node.shape_mapSites, shape_mapSites _ nodes]

/-- The same of the branches of a conditional. -/
theorem branchesShape_mapSites (shadowed : List String) (branches : List Branch) :
    branchesShape (mapBranchSites f shadowed branches) = branchesShape branches := by
  match branches with
  | [] => rfl
  | ⟨condition, body⟩ :: branches =>
    rw [mapBranchSites, branchesShape, branchesShape, shape_mapSites shadowed body,
      branchesShape_mapSites shadowed branches, Option.map_map]
    rfl
end

end MapSites

/-! ## A tree from its shape -/

/-- Bindings are determined by their names and their values. -/
theorem bindings_eq_of_shape {bindings bindings' : List Binding} {rest rest' : List String}
    (h : bindings.map (fun b => (⟨b.name, ""⟩ : Binding)) = bindings'.map fun b => ⟨b.name, ""⟩)
    (he : bindings.map (·.value) ++ rest = bindings'.map (·.value) ++ rest') :
    bindings = bindings' ∧ rest = rest' := by
  induction bindings generalizing bindings' with
  | nil =>
    cases bindings' with
    | nil => exact ⟨rfl, he⟩
    | cons b' bindings' => cases h
  | cons b bindings ih =>
    cases bindings' with
    | nil => cases h
    | cons b' bindings' =>
      obtain ⟨name, value⟩ := b
      obtain ⟨name', value'⟩ := b'
      rw [List.map_cons, List.map_cons] at h he
      obtain ⟨hname, htail⟩ := List.cons.inj h
      obtain ⟨hvalue, hetail⟩ := List.cons.inj he
      obtain ⟨hbindings, hrest⟩ := ih htail hetail
      exact ⟨congr (congrArg _ (congr (congrArg _ (Binding.mk.inj hname).1) hvalue)) hbindings,
        hrest⟩

/-- Attributes are determined by their shape and their expressions. -/
theorem attributes_eq_of_shape {attributes attributes' : List Attribute}
    {rest rest' : List String}
    (h : attributes.map (·.mapExpression fun _ => "") =
      attributes'.map (·.mapExpression fun _ => ""))
    (he : attributes.filterMap Attribute.expression? ++ rest =
      attributes'.filterMap Attribute.expression? ++ rest') :
    attributes = attributes' ∧ rest = rest' := by
  induction attributes generalizing attributes' with
  | nil =>
    cases attributes' with
    | nil => exact ⟨rfl, he⟩
    | cons a' attributes' => cases h
  | cons a attributes ih =>
    cases attributes' with
    | nil => cases h
    | cons a' attributes' =>
      obtain ⟨ha, htail⟩ := List.cons.inj h
      suffices hsame : a = a' ∧ attributes.filterMap Attribute.expression? ++ rest =
          attributes'.filterMap Attribute.expression? ++ rest' by
        obtain ⟨hattributes, hrest⟩ := ih htail hsame.2
        exact ⟨congr (congrArg _ hsame.1) hattributes, hrest⟩
      obtain ⟨bound, name, value⟩ := a
      obtain ⟨bound', name', value'⟩ := a'
      cases bound <;> cases bound' <;> cases value <;> cases value' <;>
        simp_all [Attribute.mapExpression, Attribute.expression?]

mutual

/-- A node is determined by its shape and its expressions. -/
theorem Node.eq_of_shape {node node' : Node} {rest rest' : List String}
    (h : node.shape = node'.shape)
    (he : node.expressions ++ rest = node'.expressions ++ rest') :
    node = node' ∧ rest = rest' := by
  match node with
  | .text _ | .comment _ | .host .. => cases node' <;> first | exact ⟨h, he⟩ | cases h
  | .echo expression escaped =>
    cases node' with
    | echo expression' escaped' =>
      obtain ⟨hexpression, hrest⟩ := List.cons.inj he
      exact ⟨congr (congrArg _ hexpression) (Node.echo.inj h).2, hrest⟩
    | _ => cases h
  | .flag kind expression =>
    cases node' with
    | flag kind' expression' =>
      obtain ⟨hexpression, hrest⟩ := List.cons.inj he
      exact ⟨congr (congrArg _ (Node.flag.inj h).1) hexpression, hrest⟩
    | _ => cases h
  | .conditional branches =>
    cases node' with
    | conditional branches' =>
      obtain ⟨hbranches, hrest⟩ := branches_eq_of_shape (Node.conditional.inj h) he
      exact ⟨congrArg _ hbranches, hrest⟩
    | _ => cases h
  | .existence expression body =>
    cases node' with
    | existence expression' body' =>
      obtain ⟨hexpression, hetail⟩ := List.cons.inj he
      obtain ⟨hbody, hrest⟩ := eq_of_shape (Node.existence.inj h).2 hetail
      exact ⟨congr (congrArg _ hexpression) hbody, hrest⟩
    | _ => cases h
  | .loop head bindings body =>
    cases node' with
    | loop head' bindings' body' =>
      obtain ⟨collection, item, key⟩ := head
      obtain ⟨collection', item', key'⟩ := head'
      obtain ⟨hhead, hbindings, hbody⟩ := Node.loop.inj h
      obtain ⟨-, hitem, hkey⟩ := LoopHead.mk.inj hhead
      rw [Node.expressions, Node.expressions, List.append_assoc, List.append_assoc] at he
      obtain ⟨hcollection, hetail⟩ := List.cons.inj he
      obtain ⟨hsame, hetail⟩ := bindings_eq_of_shape hbindings hetail
      obtain ⟨hbody, hrest⟩ := eq_of_shape hbody hetail
      rw [hsame, hbody, hrest]
      dsimp only at hcollection hitem hkey
      rw [hcollection, hitem, hkey]
      exact ⟨rfl, rfl⟩
    | _ => cases h
  | .component tag attributes content slots =>
    cases node' with
    | component tag' attributes' content' slots' =>
      obtain ⟨htag, hattributes, hcontent, hslots⟩ := Node.component.inj h
      obtain ⟨hsame, hrest⟩ := attributes_eq_of_shape hattributes he
      rw [htag, hsame, hcontent, hslots]
      exact ⟨rfl, hrest⟩
    | _ => cases h

/-- The shape and the expressions make up the tree, and what comes behind the expressions is
equal. -/
theorem eq_of_shape {nodes nodes' : List Node} {rest rest' : List String}
    (h : shape nodes = shape nodes')
    (he : expressions nodes ++ rest = expressions nodes' ++ rest') :
    nodes = nodes' ∧ rest = rest' := by
  match nodes, nodes' with
  | [], [] => exact ⟨rfl, he⟩
  | node :: nodes, node' :: nodes' =>
    obtain ⟨hnode, hnodes⟩ := List.cons.inj h
    rw [expressions, expressions, List.append_assoc, List.append_assoc] at he
    obtain ⟨hsame, hetail⟩ := Node.eq_of_shape hnode he
    obtain ⟨htail, hrest⟩ := eq_of_shape hnodes hetail
    rw [hsame, htail]
    exact ⟨rfl, hrest⟩
  | [], _ :: _ | _ :: _, [] => cases h

/-- The same of the branches of a conditional. -/
theorem branches_eq_of_shape {branches branches' : List Branch} {rest rest' : List String}
    (h : branchesShape branches = branchesShape branches')
    (he : branchesExpressions branches ++ rest = branchesExpressions branches' ++ rest') :
    branches = branches' ∧ rest = rest' := by
  match branches, branches' with
  | [], [] => exact ⟨rfl, he⟩
  | ⟨condition, body⟩ :: branches, ⟨condition', body'⟩ :: branches' =>
    obtain ⟨hbranch, hbranches⟩ := List.cons.inj h
    obtain ⟨hcondition, hbody⟩ := Branch.mk.inj hbranch
    rw [branchesExpressions, branchesExpressions, List.append_assoc, List.append_assoc,
      List.append_assoc, List.append_assoc] at he
    have hsame : condition = condition' ∧
        expressions body ++ (branchesExpressions branches ++ rest) =
          expressions body' ++ (branchesExpressions branches' ++ rest') := by
      cases condition <;> cases condition' <;> simp_all
    obtain ⟨hbody, hetail⟩ := eq_of_shape hbody hsame.2
    obtain ⟨htail, hrest⟩ := branches_eq_of_shape hbranches hetail
    rw [hsame.1, hbody, htail]
    exact ⟨rfl, hrest⟩
  | [], ⟨_, _⟩ :: _ | ⟨_, _⟩ :: _, [] => cases h
end

/-- **A tree is its shape and its expressions.** -/
theorem eq_of_shape_of_expressions {nodes nodes' : List Node} (h : shape nodes = shape nodes')
    (he : expressions nodes = expressions nodes') : nodes = nodes' := by
  have he' : expressions nodes ++ [] = expressions nodes' ++ [] := by rw [he]
  exact (eq_of_shape h he').1

end ViewCompiler.Template
