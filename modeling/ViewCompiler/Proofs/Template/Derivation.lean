import ViewCompiler.Proofs.Template.Tokens
import ViewCompiler.Template.Frame

/-!
# Trees derive their template

`Derives node source` is the grammar of template trees: `source` is a way of writing the node, made
of the lexemes of its construct and of the derivations of what it holds, in order. What parsing
gives is a derivation of the whole template: nothing is lost, invented or moved, whatever was given
up on the way. Here are the rules and what they say about children; the run of the parser follows
in `ViewCompiler.Proofs.Template.Reading`.
-/

namespace ViewCompiler.Template

/-! ## Derivations -/

mutual

/-- The text is a way of writing the node. -/
inductive Derives : Node → List Char → Prop where
  | text (content : String) : Derives (.text content) content.toList
  | single {node : Node} {source : List Char} (h : Spelling (.node node) source) :
      Derives node source
  | conditional {condition : String} {body : List Node} {branches : List Branch}
      {opening inside rest closing : List Char}
      (hopening : Spelling (.opening (.conditional condition)) opening)
      (hbody : DerivesAll body inside) (hbranches : DerivesBranches branches rest)
      (hclosing : Spelling (.closing .conditional) closing) :
      Derives (.conditional (⟨some condition, body⟩ :: branches))
        (opening ++ (inside ++ (rest ++ closing)))
  | loop {head : LoopHead} {body : List Node} {opening inside closing : List Char}
      (hopening : Spelling (.opening (.loop head)) opening) (hbody : DerivesAll body inside)
      (hclosing : Spelling (.closing .loop) closing) :
      Derives (.loop head [] body) (opening ++ (inside ++ closing))
  | existence {expression : String} {body : List Node} {opening inside closing : List Char}
      (hopening : Spelling (.opening (.existence expression)) opening)
      (hbody : DerivesAll body inside) (hclosing : Spelling (.closing .existence) closing) :
      Derives (.existence expression body) (opening ++ (inside ++ closing))
  /-- The default slot holds the children that are no slots. Of two slots with one name the last
  one counts, in the place of the first. -/
  | component {tag : String} {attributes : List Attribute} {children : List Child}
      {opening inside closing : List Char}
      (hopening : Spelling (.opening (.component tag attributes)) opening)
      (hchildren : DerivesChildren children inside)
      (hclosing : Spelling (.tagClosing tag) closing) :
      Derives
        (.component tag attributes (Frame.defaultContent children)
          (collectBy NamedSlot.name (slotsOf children)))
        (opening ++ (inside ++ closing))

/-- The text is a way of writing the nodes, one after the other. -/
inductive DerivesAll : List Node → List Char → Prop where
  | nil : DerivesAll [] []
  | cons {node : Node} {nodes : List Node} {source rest : List Char} (h : Derives node source)
      (hnodes : DerivesAll nodes rest) : DerivesAll (node :: nodes) (source ++ rest)

/-- The text is a way of writing the branches of a conditional after the first. Nothing follows the
alternative. -/
inductive DerivesBranches : List Branch → List Char → Prop where
  | nil : DerivesBranches [] []
  | next {condition : String} {body : List Node} {branches : List Branch}
      {opening inside rest : List Char}
      (hopening : Spelling (.branch (some condition)) opening) (hbody : DerivesAll body inside)
      (hbranches : DerivesBranches branches rest) :
      DerivesBranches (⟨some condition, body⟩ :: branches) (opening ++ (inside ++ rest))
  | alternative {body : List Node} {opening inside : List Char}
      (hopening : Spelling (.branch none) opening) (hbody : DerivesAll body inside) :
      DerivesBranches [⟨none, body⟩] (opening ++ inside)

/-- The text is a way of writing the children of a component. -/
inductive DerivesChildren : List Child → List Char → Prop where
  | nil : DerivesChildren [] []
  | node {node : Node} {children : List Child} {source rest : List Char} (h : Derives node source)
      (hchildren : DerivesChildren children rest) :
      DerivesChildren (.node node :: children) (source ++ rest)
  | slot {name opening closing : String} {body : List Node} {children : List Child}
      {inside rest : List Char} (hopening : Spelling (.slotOpening name) opening.toList)
      (hbody : DerivesAll body inside) (hclosing : Spelling .slotClosing closing.toList)
      (hchildren : DerivesChildren children rest) :
      DerivesChildren (.slot name opening body closing :: children)
        (opening.toList ++ (inside ++ (closing.toList ++ rest)))
end

/-! ## Children -/

/-- Only its own content derives a text. -/
theorem source_of_derives_text {content : String} {source : List Char}
    (h : Derives (.text content) source) : source = content.toList := by
  cases h with
  | text => rfl
  | single h => nomatch h

/-- Derivations of two lists of children are put one after the other. -/
theorem DerivesChildren.append {children new : List Child} {before after : List Char}
    (h : DerivesChildren children before) (hnew : DerivesChildren new after) :
    DerivesChildren (children ++ new) (before ++ after) := by
  match h with
  | .nil => exact hnew
  | .node hnode h =>
    rw [List.append_assoc]
    exact .node hnode (h.append hnew)
  | .slot hopening hbody hclosing h =>
    simp only [List.append_assoc]
    exact .slot hopening hbody hclosing (h.append hnew)

/-- A derivation of a node derives it as a child. -/
theorem DerivesChildren.singleton {node : Node} {source : List Char} (h : Derives node source) :
    DerivesChildren [.node node] source := by
  have := DerivesChildren.node h .nil
  rwa [List.append_nil] at this

/-- A derivation of nodes derives them as children. -/
theorem DerivesAll.children {nodes : List Node} {source : List Char}
    (h : DerivesAll nodes source) :
    DerivesChildren (nodes.map Child.node) source := by
  match h with
  | .nil => exact .nil
  | .cons hnode h => exact .node hnode h.children

/-- Text that goes on with the text before it is written behind it. -/
theorem DerivesChildren.addText {children : List Child} {before : List Char}
    (h : DerivesChildren children before) (content : String) :
    DerivesChildren (addText content children) (before ++ content.toList) := by
  fun_induction Template.addText content children generalizing before with
  | case1 =>
    cases h
    exact .singleton (.text content)
  | case2 text =>
    cases h with
    | node htext h =>
      cases h
      rw [source_of_derives_text htext, List.append_nil, ← String.toList_append]
      exact .singleton (.text _)
  | case3 child children _ ih =>
    cases h with
    | node hnode h =>
      rw [List.append_assoc]
      exact .node hnode (ih h)
    | slot hopening hbody hclosing h =>
      simp only [List.append_assoc]
      exact .slot hopening hbody hclosing (ih h)

/-- Adding a child adds its source, also where it is merged into the text before it. -/
theorem DerivesChildren.addChild {children : List Child} {child : Child} {before after : List Char}
    (h : DerivesChildren children before) (hchild : DerivesChildren [child] after) :
    DerivesChildren (addChild children child) (before ++ after) := by
  fun_cases Template.addChild children child with
  | case1 =>
    cases hchild with
    | node htext hnil =>
      cases hnil
      rw [source_of_derives_text htext]
      simpa using h
  | case2 content _ =>
    cases hchild with
    | node htext hnil =>
      cases hnil
      rw [source_of_derives_text htext, List.append_nil]
      exact h.addText content
  | case3 => exact h.append hchild

/-- Adding children adds their sources. -/
theorem DerivesChildren.addChildren {children new : List Child} {before after : List Char}
    (h : DerivesChildren children before) (hnew : DerivesChildren new after) :
    DerivesChildren (addChildren children new) (before ++ after) := by
  induction new generalizing children before after with
  | nil =>
    cases hnew
    rwa [List.append_nil]
  | cons child new ih =>
    obtain ⟨first, rest, rfl, hfirst, hrest⟩ : ∃ first rest, after = first ++ rest ∧
        DerivesChildren [child] first ∧ DerivesChildren new rest := by
      cases hnew with
      | node hnode hnew => exact ⟨_, _, rfl, .singleton hnode, hnew⟩
      | @slot _ _ _ _ _ inside rest hopening hbody hclosing hnew =>
        refine ⟨_, rest, ?_, .slot hopening hbody hclosing .nil, hnew⟩
        simp
    rw [← List.append_assoc]
    exact ih (h.addChild hfirst) hrest

/-! ## Text among the children -/

/-- Text is added to the last child, so the first one stays in front of others. -/
theorem addText_cons {child : Child} {children : List Child}
    (h : ∀ before, child = .text before → children ≠ []) (content : String) :
    addText content (child :: children) = child :: addText content children := by
  rw [addText]
  rintro before rfl rfl
  exact h before rfl rfl

/-- Text goes on with the text before it. -/
theorem addText_concat (before content : String) (children : List Child) :
    addText content (children ++ [.text before]) = children ++ [.text (before ++ content)] := by
  induction children with
  | nil => rfl
  | cons child children ih =>
    rw [List.cons_append, addText_cons (fun _ _ => by simp), ih]
    rfl

/-- Text goes behind a child that is no text. -/
theorem addText_of_getLast? {content : String} {children : List Child}
    (h : ∀ before, children.getLast? ≠ some (.text before)) :
    addText content children = children ++ [.text content] := by
  induction children with
  | nil => rfl
  | cons child children ih =>
    cases children with
    | nil =>
      have hchild : ∀ before, child = .text before → [] ≠ ([] : List Child) :=
        fun before heq => absurd (congrArg some heq) (h before)
      rw [addText_cons hchild]
      rfl
    | cons next children =>
      rw [addText_cons (fun _ _ => List.cons_ne_nil _ _), ih fun before => ?_]
      · rfl
      · rw [← List.getLast?_cons_cons]
        exact h before

/-! ## Slots among the children -/

/-- The slots of two lists are those of one and of the other. -/
@[simp] theorem slotsOf_append (children new : List Child) :
    slotsOf (children ++ new) = slotsOf children ++ slotsOf new := List.filterMap_append

/-- Adding text adds no slot. -/
@[simp] theorem slotsOf_addText (content : String) (children : List Child) :
    slotsOf (addText content children) = slotsOf children := by
  fun_induction addText content children with
  | case1 => rfl
  | case2 => rfl
  | case3 child children _ ih =>
    cases child with
    | node node => exact ih
    | slot name opening body closing => exact congrArg (⟨name, body⟩ :: ·) ih

/-- Adding a child adds its slot, if it is one. -/
@[simp] theorem slotsOf_addChild (children : List Child) (child : Child) :
    slotsOf (addChild children child) = slotsOf children ++ slotsOf [child] := by
  fun_cases addChild children child with
  | case1 => exact (List.append_nil _).symm
  | case2 content _ =>
    rw [slotsOf_addText]
    exact (List.append_nil _).symm
  | case3 => exact slotsOf_append children [child]

/-- Adding children adds their slots. -/
@[simp] theorem slotsOf_addChildren (children new : List Child) :
    slotsOf (addChildren children new) = slotsOf children ++ slotsOf new := by
  induction new generalizing children with
  | nil => exact (List.append_nil _).symm
  | cons child new ih =>
    rw [addChildren, List.foldl_cons]
    refine (ih _).trans ?_
    rw [slotsOf_addChild, List.append_assoc, ← slotsOf_append, List.singleton_append]

/-- Nodes are not slots. -/
theorem slotsOf_map_node (nodes : List Node) : slotsOf (nodes.map Child.node) = [] := by
  rw [slotsOf, List.filterMap_map]
  exact List.filterMap_eq_nil_iff.mpr fun _ _ => rfl

/-- Children without slots are as they are where their component is text, too. -/
theorem flatMap_unwrapped {children : List Child} (h : slotsOf children = []) :
    children.flatMap Child.unwrapped = children := by
  induction children with
  | nil => rfl
  | cons child children ih =>
    cases child with
    | node value => exact congrArg (Child.node value :: ·) (ih h)
    | slot => cases h

/-- A slot that is text is no slot. -/
theorem slotsOf_unwrapped (children : List Child) :
    slotsOf (children.flatMap Child.unwrapped) = [] := by
  induction children with
  | nil => rfl
  | cons child children ih =>
    rw [List.flatMap_cons, slotsOf_append, ih, List.append_nil]
    cases child with
    | node node => rfl
    | slot name opening body closing =>
      rw [Child.unwrapped, ← List.singleton_append, slotsOf_append, slotsOf_append,
        slotsOf_map_node]
      rfl

/-- Children without slots are nodes. -/
theorem DerivesChildren.nodes {children : List Child} {source : List Char}
    (h : DerivesChildren children source) (hslots : slotsOf children = []) :
    DerivesAll (nodesOf children) source := by
  match h with
  | .nil => exact .nil
  | .node hnode h => exact .cons hnode (h.nodes hslots)
  | .slot .. => nomatch hslots

/-- Taking slots back to text keeps the source. -/
theorem DerivesChildren.unwrapped {children : List Child} {source : List Char}
    (h : DerivesChildren children source) :
    DerivesChildren (children.flatMap Child.unwrapped) source := by
  match h with
  | .nil => exact .nil
  | .node hnode h => exact .node hnode h.unwrapped
  | .slot _ hbody _ h =>
    rw [List.flatMap_cons, Child.unwrapped, List.cons_append, List.cons_append, List.append_assoc]
    exact .node (.text _) (hbody.children.append (.node (.text _) h.unwrapped))

end ViewCompiler.Template
