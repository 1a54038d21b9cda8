import ViewCompiler.Proofs.Template.Deduplication
import ViewCompiler.Proofs.Template.Reads

/-!
# What a deduplicated tree reads

Deduplication moves calls to other places of a tree and puts new variables in their place. Where
the calls are settled, the new tree reads nothing new but the variables that are bound ahead of it,
and the calls that are bound there read what the old tree read (`reads_dedup`,
`mentioned_of_mem_dedup`). Host statements may run in the tree, and its variables may have any
names.

The second part needs to know where a call comes from. A call that is bound ahead of the tree is on
a variable that no loop shadows, and it is not one of those that the loops bind, since these are on
variables of their loops. So it stood at a place of the old tree where no loop shadows its variable
either (`Narrowed.freeCalls_sub`), and there the variable is free.
-/

namespace ViewCompiler.Template

open Expression

/-! ## The names shadowed at a site -/

/-- A site of a part of a tree, where more names are shadowed around the part. -/
def Site.under (outer : List String) (site : Site) : Site :=
  ⟨site.shadowed ++ outer, site.expression⟩

mutual

/-- Names bound around a node are added to what each of its sites has shadowed. -/
theorem Node.sites_append (shadowed outer : List String) (node : Node) :
    node.sites (shadowed ++ outer) = (node.sites shadowed).map (Site.under outer) := by
  match node with
  | .text _ | .comment _ | .host .. | .echo .. | .flag .. => rfl
  | .conditional branches => exact branchSites_append shadowed outer branches
  | .loop head bindings body =>
    simp only [Node.sites, ← List.append_assoc, sites_append _ outer body, List.map_append,
      List.map_cons, List.map_map]
    rfl
  | .existence expression body =>
    rw [Node.sites, Node.sites, sites_append shadowed outer body]
    rfl
  | .component .. =>
    rw [Node.sites, Node.sites, List.map_map]
    rfl

/-- The sites of a part of a tree. -/
theorem sites_append (shadowed outer : List String) (nodes : List Node) :
    sites (shadowed ++ outer) nodes = (sites shadowed nodes).map (Site.under outer) := by
  match nodes with
  | [] => rfl
  | node :: nodes =>
    rw [sites, sites, node.sites_append, ← List.append_assoc, sites_append _ outer nodes,
      List.map_append]

/-- The same of the branches of a conditional. -/
theorem branchSites_append (shadowed outer : List String) (branches : List Branch) :
    branchSites (shadowed ++ outer) branches =
      (branchSites shadowed branches).map (Site.under outer) := by
  match branches with
  | [] => rfl
  | ⟨condition, body⟩ :: branches =>
    rw [branchSites, branchSites, sites_append shadowed outer body,
      branchSites_append shadowed outer branches, List.map_append, List.map_append, List.map_map]
    rfl
end

/-- The sites under outer names are those of the tree alone, each put under these names. -/
theorem sites_eq_map (outer : List String) (nodes : List Node) :
    sites outer nodes = (sites [] nodes).map (Site.under outer) :=
  sites_append [] outer nodes

section MapSites

variable {f : Site → String}

/-- Rewriting attributes rewrites the expressions read off them. -/
theorem filterMap_mapExpression (g : String → String) (attributes : List Attribute) :
    (attributes.map (·.mapExpression g)).filterMap Attribute.expression? =
      (attributes.filterMap Attribute.expression?).map g := by
  rw [List.filterMap_map, List.map_filterMap]
  refine List.filterMap_congr fun a _ => ?_
  obtain ⟨bound, name, value⟩ := a
  cases bound <;> cases value <;> rfl

mutual

/-- The sites of a rewritten node are its sites, each with the rewritten expression. -/
theorem Node.sites_mapSites (shadowed : List String) (node : Node) :
    (node.mapSites f shadowed).sites shadowed =
      (node.sites shadowed).map fun site => ⟨site.shadowed, f site⟩ := by
  match node with
  | .text _ | .comment _ | .host .. | .echo .. | .flag .. => rfl
  | .conditional branches => exact branchSites_mapSites shadowed branches
  | .loop head bindings body =>
    have hrebound := (mapSites_shape (f := f) (head.names ++ rebound body ++ shadowed) body).1
    have hnames : LoopHead.names { head with collection := f ⟨shadowed, head.collection⟩ } =
        head.names := rfl
    simp only [Node.sites, Node.mapSites, hnames, hrebound, sites_mapSites _ body, List.map_append,
      List.map_cons, List.map_map]
    rfl
  | .existence expression body =>
    rw [Node.mapSites, Node.sites, Node.sites, sites_mapSites shadowed body]
    rfl
  | .component tag attributes content slots =>
    rw [Node.mapSites, Node.sites, Node.sites, filterMap_mapExpression, List.map_map, List.map_map]
    rfl

/-- A change of the expressions changes no name that is shadowed. -/
theorem sites_mapSites (shadowed : List String) (nodes : List Node) :
    sites shadowed (mapSites f shadowed nodes) =
      (sites shadowed nodes).map fun site => ⟨site.shadowed, f site⟩ := by
  match nodes with
  | [] => rfl
  | node :: nodes =>
    rw [mapSites, sites, sites, (Node.mapSites_shape shadowed node).1, node.sites_mapSites,
      sites_mapSites _ nodes, List.map_append]

/-- The same of the branches of a conditional. -/
theorem branchSites_mapSites (shadowed : List String) (branches : List Branch) :
    branchSites shadowed (mapBranchSites f shadowed branches) =
      (branchSites shadowed branches).map fun site => ⟨site.shadowed, f site⟩ := by
  match branches with
  | [] => rfl
  | ⟨condition, body⟩ :: branches =>
    rw [mapBranchSites, branchSites, branchSites, sites_mapSites shadowed body,
      branchSites_mapSites shadowed branches, List.map_append, List.map_append, List.map_map]
    cases condition <;> rfl
end

end MapSites

/-! ## Reading a tree -/

section Reads

variable {x : String}

mutual

/-- A name mentioned at a site is read by the node, if neither the site nor a local binding shadows
it. -/
theorem Node.mem_reads_of_mem_sites {shadowed : List String} {node : Node} {site : Site}
    (hsite : site ∈ node.sites shadowed) (hx : x ∈ mentioned site.expression)
    (hshadowed : x ∉ site.shadowed) (hlocal : x ∉ node.localNames) : x ∈ node.reads [] := by
  match node with
  | .text _ | .comment _ | .host .. => cases hsite
  | .echo .. | .flag .. =>
    obtain rfl := List.mem_singleton.mp hsite
    exact mem_unbound.mpr ⟨hx, List.not_mem_nil⟩
  | .conditional branches => exact mem_branchesRead_of_mem_sites hsite hx hshadowed hlocal
  | .existence expression body =>
    rcases List.mem_cons.mp hsite with rfl | hsite
    · exact List.mem_append_left _ (mem_unbound.mpr ⟨hx, List.not_mem_nil⟩)
    · exact List.mem_append_right _ (mem_reads_of_mem_sites hsite hx hshadowed hlocal)
  | .loop head bindings body =>
    obtain ⟨hnames, hbody⟩ := not_or.mp fun h => hlocal (List.mem_append.mpr h)
    rcases List.mem_append.mp hsite with hsite | hsite
    · rcases List.mem_cons.mp hsite with rfl | hsite
      · exact List.mem_append_left _
          (List.mem_append_left _ (mem_unbound.mpr ⟨hx, List.not_mem_nil⟩))
      · obtain ⟨b, hb, rfl⟩ := List.mem_map.mp hsite
        have hhead : x ∉ head.names ++ [] := fun h => hshadowed
          (List.mem_append_left _ (List.mem_append_left _ (List.append_nil head.names ▸ h)))
        exact List.mem_append_left _ (List.mem_append_right _
          (List.mem_flatMap.mpr ⟨b, hb, mem_unbound.mpr ⟨hx, hhead⟩⟩))
    · have hread : x ∈ reads [] body := mem_reads_of_mem_sites hsite hx hshadowed hbody
      rw [sites_eq_map] at hsite
      obtain ⟨inner, -, rfl⟩ := List.mem_map.mp hsite
      refine List.mem_append_right _ (mem_reads.mpr ⟨hread, ?_⟩)
      simp only [Site.under, List.mem_append] at hshadowed ⊢
      tauto
  | .component tag attributes content slots =>
    obtain ⟨e, he, rfl⟩ := List.mem_map.mp hsite
    exact List.mem_append_left _ (List.mem_append_left _
      (List.mem_flatMap.mpr ⟨e, he, mem_unbound.mpr ⟨hx, List.not_mem_nil⟩⟩))

/-- A variable that is mentioned where it is not shadowed is free, if it is not a local variable of
a loop. -/
theorem mem_reads_of_mem_sites {shadowed : List String} {nodes : List Node} {site : Site}
    (hsite : site ∈ sites shadowed nodes) (hx : x ∈ mentioned site.expression)
    (hshadowed : x ∉ site.shadowed) (hlocal : x ∉ localNames nodes) : x ∈ reads [] nodes := by
  match nodes with
  | [] => cases hsite
  | node :: nodes =>
    obtain ⟨hnode, hnodes⟩ := not_or.mp fun h => hlocal (List.mem_append.mpr h)
    exact List.mem_append.mpr ((List.mem_append.mp hsite).imp
      (fun h => Node.mem_reads_of_mem_sites h hx hshadowed hnode)
      fun h => mem_reads_of_mem_sites h hx hshadowed hnodes)

/-- The same of the branches of a conditional. -/
theorem mem_branchesRead_of_mem_sites {shadowed : List String} {branches : List Branch}
    {site : Site} (hsite : site ∈ branchSites shadowed branches)
    (hx : x ∈ mentioned site.expression) (hshadowed : x ∉ site.shadowed)
    (hlocal : x ∉ branchesLocalNames branches) : x ∈ branchesRead [] branches := by
  match branches with
  | [] => cases hsite
  | ⟨condition, body⟩ :: branches =>
    obtain ⟨hbody, hbranches⟩ := not_or.mp fun h => hlocal (List.mem_append.mpr h)
    rcases List.mem_append.mp hsite with hsite | hsite
    · rcases List.mem_append.mp hsite with hsite | hsite
      · obtain ⟨e, he, rfl⟩ := List.mem_map.mp hsite
        exact List.mem_append_left _ (List.mem_append_left _
          (List.mem_flatMap.mpr ⟨e, he, mem_unbound.mpr ⟨hx, List.not_mem_nil⟩⟩))
      · exact List.mem_append_left _ (List.mem_append_right _
          (mem_reads_of_mem_sites hsite hx hshadowed hbody))
    · exact List.mem_append_right _ (mem_branchesRead_of_mem_sites hsite hx hshadowed hbranches)
end

variable {f : Site → String}

/-- A changed expression reads no more where names are bound. -/
theorem mem_unbound_of_mentioned {bound : List String} {e e' : String}
    (h : x ∈ mentioned e' → x ∈ mentioned e) (hx : x ∈ unbound bound e') : x ∈ unbound bound e :=
  mem_unbound.mpr ((mem_unbound.mp hx).imp_left h)

mutual

/-- A rewriting that mentions no new names at any site lets the node read no new ones. -/
theorem Node.mem_reads_of_mapSites {shadowed : List String} {node : Node}
    (hf : ∀ site ∈ node.sites shadowed, x ∈ mentioned (f site) → x ∈ mentioned site.expression)
    (hx : x ∈ (node.mapSites f shadowed).reads []) : x ∈ node.reads [] := by
  match node with
  | .text _ | .comment _ | .host .. => exact hx
  | .echo expression _ | .flag _ expression =>
    have hsame := hf ⟨shadowed, expression⟩ List.mem_cons_self
    exact mem_unbound_of_mentioned hsame hx
  | .conditional branches => exact mem_branchesRead_of_mapSites hf hx
  | .existence expression body =>
    rw [Node.sites, List.forall_mem_cons] at hf
    exact List.mem_append.mpr ((List.mem_append.mp hx).imp (mem_unbound_of_mentioned hf.1)
      (mem_reads_of_mapSites hf.2))
  | .loop head bindings body =>
    simp only [Node.sites, List.forall_mem_append, List.forall_mem_cons, List.forall_mem_map] at hf
    rw [Node.mapSites, Node.reads, List.mem_append, List.mem_append, List.mem_flatMap] at hx
    rw [Node.reads, List.mem_append, List.mem_append, List.mem_flatMap]
    obtain ⟨⟨hcollection, hvalues⟩, hbody⟩ := hf
    rcases hx with (hx | ⟨b, hb, hx⟩) | hx
    · exact .inl (.inl (mem_unbound_of_mentioned hcollection hx))
    · obtain ⟨old, hold, rfl⟩ := List.mem_map.mp hb
      exact .inl (.inr ⟨old, hold, mem_unbound_of_mentioned (hvalues old hold) hx⟩)
    · obtain ⟨hx, hbound⟩ := mem_reads.mp hx
      rw [List.map_map] at hbound
      exact .inr (mem_reads.mpr ⟨mem_reads_of_mapSites hbody hx, hbound⟩)
  | .component tag attributes content slots =>
    rw [Node.mapSites, Node.reads, filterMap_mapExpression, List.flatMap_map] at hx
    refine List.mem_append.mpr ((List.mem_append.mp hx).imp_left fun hx => ?_)
    refine List.mem_append.mpr ((List.mem_append.mp hx).imp_left fun hx => ?_)
    obtain ⟨e, he, hx⟩ := List.mem_flatMap.mp hx
    have hsame := hf ⟨shadowed, e⟩ (List.mem_map_of_mem he)
    exact List.mem_flatMap.mpr ⟨e, he, mem_unbound_of_mentioned hsame hx⟩

/-- A changed tree reads no variable that its changed expressions do not mention anew. -/
theorem mem_reads_of_mapSites {shadowed : List String} {nodes : List Node}
    (hf : ∀ site ∈ sites shadowed nodes, x ∈ mentioned (f site) → x ∈ mentioned site.expression)
    (hx : x ∈ reads [] (mapSites f shadowed nodes)) : x ∈ reads [] nodes := by
  match nodes with
  | [] => exact hx
  | node :: nodes =>
    rw [sites, List.forall_mem_append] at hf
    exact List.mem_append.mpr ((List.mem_append.mp hx).imp (Node.mem_reads_of_mapSites hf.1)
      (mem_reads_of_mapSites hf.2))

/-- The same of the branches of a conditional. -/
theorem mem_branchesRead_of_mapSites {shadowed : List String} {branches : List Branch}
    (hf : ∀ site ∈ branchSites shadowed branches,
      x ∈ mentioned (f site) → x ∈ mentioned site.expression)
    (hx : x ∈ branchesRead [] (mapBranchSites f shadowed branches)) :
    x ∈ branchesRead [] branches := by
  match branches with
  | [] => exact hx
  | ⟨condition, body⟩ :: branches =>
    rw [branchSites, List.forall_mem_append, List.forall_mem_append] at hf
    obtain ⟨⟨hcondition, hbody⟩, hbranches⟩ := hf
    rcases List.mem_append.mp hx with hx | hx
    · refine List.mem_append_left _ ?_
      rcases List.mem_append.mp hx with hx | hx
      · cases condition with
        | none => cases hx
        | some e =>
          rw [Option.map_some, Option.toList_some, List.flatMap_singleton] at hx
          refine List.mem_append_left _ ?_
          rw [Option.toList_some, List.flatMap_singleton]
          exact mem_unbound_of_mentioned (hcondition ⟨shadowed, e⟩ List.mem_cons_self) hx
      · exact List.mem_append_right _ (mem_reads_of_mapSites hbody hx)
    · exact List.mem_append_right _ (mem_branchesRead_of_mapSites hbranches hx)
end

end Reads

/-! ## Trees after some rounds -/

section Narrowed

variable {repeats owned : DottedPath → Prop}

/-- What is needed of a tree whose loops are deduplicated: its calls are settled. -/
structure CallsSettled (repeats owned : DottedPath → Prop) (nodes : List Node) : Prop where
  settled : ∀ e ∈ expressions nodes, Settled repeats owned (accessor.pieces e.toList)
  repeats_of_count : ∀ a, 1 < (calls nodes).count a → repeats a
  owned_of_rebound : ∀ a, String.ofList a.name ∈ rebound nodes → owned a

/-- The second tree is the first one after some rounds of hoisting in its loops: it reads no more,
and its calls on names that no loop shadows are such calls of the first one. -/
structure Narrowed (repeats owned : DottedPath → Prop) (nodes nodes' : List Node) : Prop where
  rebound_eq : rebound nodes' = rebound nodes
  settled : ∀ e ∈ expressions nodes', Settled repeats owned (accessor.pieces e.toList)
  count_le : ∀ a, (calls nodes').count a ≤ (calls nodes).count a
  reads_sub : reads [] nodes' ⊆ reads [] nodes
  freeCalls_sub : wantedCalls freeCalls nodes' ⊆ wantedCalls freeCalls nodes

/-! ### Calls on names that no loop shadows -/

section FreeCalls

variable {a : DottedPath}

/-- The calls deduplication may hoist at top level stand at a site where their variable is not
shadowed. -/
theorem mem_freeCalls {nodes : List Node} :
    a ∈ wantedCalls freeCalls nodes ↔ ∃ site ∈ sites [] nodes,
      a ∈ accessor.all site.expression ∧ String.ofList a.name ∉ site.shadowed := by
  simp [wantedCalls, freeCalls]

/-- The calls of a part of a tree around which names are shadowed. -/
theorem exists_site_iff {outer : List String} {nodes : List Node} :
    (∃ site ∈ sites outer nodes,
        a ∈ accessor.all site.expression ∧ String.ofList a.name ∉ site.shadowed) ↔
      a ∈ wantedCalls freeCalls nodes ∧ String.ofList a.name ∉ outer := by
  rw [mem_freeCalls, sites_eq_map outer]
  constructor
  · rintro ⟨site, hsite, ha, hshadowed⟩
    obtain ⟨inner, hinner, rfl⟩ := List.mem_map.mp hsite
    obtain ⟨hname, houter⟩ := not_or.mp fun h => hshadowed (List.mem_append.mpr h)
    exact ⟨⟨inner, hinner, ha, hname⟩, houter⟩
  · rintro ⟨⟨inner, hinner, ha, hname⟩, houter⟩
    exact ⟨_, List.mem_map_of_mem hinner, ha, fun h => (List.mem_append.mp h).elim hname houter⟩

/-- A call is free in a list if it is in the first node, or in the rest and not on a name that node
rebinds. -/
theorem mem_freeCalls_cons {node : Node} {nodes : List Node} :
    a ∈ wantedCalls freeCalls (node :: nodes) ↔ a ∈ wantedCalls freeCalls [node] ∨
      a ∈ wantedCalls freeCalls nodes ∧ String.ofList a.name ∉ rebound [node] := by
  rw [← exists_site_iff, mem_freeCalls, mem_freeCalls]
  simp only [sites, rebound, List.append_nil, List.mem_append, or_and_right, exists_or]

/-- The free calls of an existence check are those of its expression and its body. -/
theorem mem_freeCalls_existence {expression : String} {body : List Node} :
    a ∈ wantedCalls freeCalls [.existence expression body] ↔
      a ∈ accessor.all expression ∨ a ∈ wantedCalls freeCalls body := by
  rw [mem_freeCalls, mem_freeCalls]
  simp [sites, Node.sites]

/-- The free calls of a conditional are those of its conditions and its bodies. -/
theorem mem_freeCalls_branch {condition : Option String} {body : List Node}
    {branches : List Branch} :
    a ∈ wantedCalls freeCalls [.conditional (⟨condition, body⟩ :: branches)] ↔
      (∃ e ∈ condition, a ∈ accessor.all e) ∨ a ∈ wantedCalls freeCalls body ∨
        a ∈ wantedCalls freeCalls [.conditional branches] := by
  rw [mem_freeCalls, mem_freeCalls, mem_freeCalls]
  simp [sites, Node.sites, branchSites, or_and_right, exists_or]

/-- The free calls of a loop are those of its collection, and those of its bindings and body on
names it does not bind. -/
theorem mem_freeCalls_loop {head : LoopHead} {bindings : List Binding} {body : List Node} :
    a ∈ wantedCalls freeCalls [.loop head bindings body] ↔ a ∈ accessor.all head.collection ∨
      ((∃ b ∈ bindings, a ∈ accessor.all b.value) ∨ a ∈ wantedCalls freeCalls body) ∧
        String.ofList a.name ∉ head.names ++ rebound body := by
  rw [mem_freeCalls]
  simp only [sites, Node.sites, List.append_nil]
  generalize head.names ++ rebound body = inner
  have hvalues : (∃ b ∈ bindings, a ∈ accessor.all b.value ∧ String.ofList a.name ∉ inner) ↔
      (∃ b ∈ bindings, a ∈ accessor.all b.value) ∧ String.ofList a.name ∉ inner := by
    simp only [← and_assoc, exists_and_right]
  simp only [List.mem_append, List.mem_cons, List.mem_map, or_and_right, exists_or, exists_eq_left,
    exists_exists_and_eq_and, exists_site_iff, hvalues, List.not_mem_nil, not_false_eq_true,
    and_true]
  exact or_assoc

end FreeCalls

/-! ### Constructs -/

namespace Narrowed

variable {nodes nodes' nodes'' : List Node}

/-- A list all of whose expressions are settled is narrowed to itself. -/
theorem refl (hsettled : ∀ e ∈ expressions nodes,
    Settled repeats owned (accessor.pieces e.toList)) : Narrowed repeats owned nodes nodes :=
  ⟨rfl, hsettled, fun _ => Nat.le_refl _, List.Subset.refl _, List.Subset.refl _⟩

/-- Narrowing twice narrows. -/
theorem trans (h : Narrowed repeats owned nodes nodes')
    (h' : Narrowed repeats owned nodes' nodes'') : Narrowed repeats owned nodes nodes'' :=
  ⟨h'.rebound_eq.trans h.rebound_eq, h'.settled, fun a => (h'.count_le a).trans (h.count_le a),
    List.Subset.trans h'.reads_sub h.reads_sub,
    List.Subset.trans h'.freeCalls_sub h.freeCalls_sub⟩

/-- Nodes after a node. -/
theorem cons {node node' : Node} (h : Narrowed repeats owned [node] [node'])
    (h' : Narrowed repeats owned nodes nodes') :
    Narrowed repeats owned (node :: nodes) (node' :: nodes') := by
  obtain ⟨hrebound, hsettled, hcount, hreads, hfree⟩ := h
  obtain ⟨hrebound', hsettled', hcount', hreads', hfree'⟩ := h'
  refine ⟨?_, fun e he => ?_, fun a => ?_, ?_, fun a ha => ?_⟩
  · simp only [rebound, List.append_nil] at hrebound ⊢
    rw [hrebound, hrebound']
  · rcases List.mem_append.mp he with he | he
    · exact hsettled e (List.mem_append_left _ he)
    · exact hsettled' e he
  · have hsum := Nat.add_le_add (hcount a) (hcount' a)
    simpa only [calls, expressions, List.append_nil, List.flatMap_append, List.count_append]
      using hsum
  · simp only [reads, List.append_nil] at hreads ⊢
    exact List.append_subset.mpr ⟨List.subset_append_of_subset_left _ hreads,
      List.subset_append_of_subset_right _ hreads'⟩
  · rw [mem_freeCalls_cons] at ha ⊢
    rw [← hrebound]
    exact ha.imp (@hfree a) (And.imp_left (@hfree' a))

/-- The body of an existence test. -/
theorem existence {expression : String}
    (hsettled : Settled repeats owned (accessor.pieces expression.toList))
    (h : Narrowed repeats owned nodes nodes') :
    Narrowed repeats owned [.existence expression nodes] [.existence expression nodes'] := by
  obtain ⟨hrebound, hsettled', hcount, hreads, hfree⟩ := h
  refine ⟨?_, fun e he => ?_, fun a => ?_, ?_, fun a ha => ?_⟩
  · simpa only [rebound, Node.rebound, List.append_nil] using hrebound
  · simp only [expressions, Node.expressions, List.append_nil, List.mem_cons] at he
    rcases he with rfl | he
    · exact hsettled
    · exact hsettled' e he
  · have hsum := Nat.add_le_add_left (hcount a) ((accessor.all expression).count a)
    simpa only [calls, expressions, Node.expressions, List.append_nil, List.flatMap_cons,
      List.count_append] using hsum
  · simp only [reads, Node.reads, List.append_nil]
    exact List.append_subset.mpr ⟨List.subset_append_left _ _,
      List.subset_append_of_subset_right _ hreads⟩
  · rw [mem_freeCalls_existence] at ha ⊢
    exact ha.imp_right (@hfree a)

/-- A branch before the other branches of a conditional. -/
theorem branch {condition : Option String} {branches branches' : List Branch}
    (hsettled : ∀ e ∈ condition, Settled repeats owned (accessor.pieces e.toList))
    (h : Narrowed repeats owned nodes nodes')
    (h' : Narrowed repeats owned [.conditional branches] [.conditional branches']) :
    Narrowed repeats owned [.conditional (⟨condition, nodes⟩ :: branches)]
      [.conditional (⟨condition, nodes'⟩ :: branches')] := by
  obtain ⟨hrebound, hsettled', hcount, hreads, hfree⟩ := h
  obtain ⟨hrebound', hsettled'', hcount', hreads', hfree'⟩ := h'
  refine ⟨?_, fun e he => ?_, fun a => ?_, ?_, fun a ha => ?_⟩
  · simp only [rebound, Node.rebound, branchesRebind, List.append_nil] at hrebound' ⊢
    rw [hrebound, hrebound']
  · simp only [expressions, Node.expressions, branchesExpressions, List.append_nil,
      List.mem_append, Option.mem_toList] at he hsettled''
    rcases he with (he | he) | he
    · exact hsettled e he
    · exact hsettled' e he
    · exact hsettled'' e he
  · have hsum := Nat.add_le_add_left (Nat.add_le_add (hcount a) (hcount' a))
      ((condition.toList.flatMap accessor.all).count a)
    simpa only [calls, expressions, Node.expressions, branchesExpressions, List.append_nil,
      List.flatMap_append, List.count_append, Nat.add_assoc] using hsum
  · simp only [reads, Node.reads, branchesRead, List.append_nil] at hreads' ⊢
    refine List.append_subset.mpr ⟨List.append_subset.mpr ⟨?_, ?_⟩, ?_⟩
    · exact List.subset_append_of_subset_left _ (List.subset_append_left _ _)
    · exact List.subset_append_of_subset_left _ (List.subset_append_of_subset_right _ hreads)
    · exact List.subset_append_of_subset_right _ hreads'
  · rw [mem_freeCalls_branch] at ha ⊢
    exact ha.imp_right (Or.imp (@hfree a) (@hfree' a))

/-- The body of a loop. -/
theorem loop {head : LoopHead} {bindings : List Binding}
    (hsettled : ∀ e ∈ head.collection :: bindings.map (·.value),
      Settled repeats owned (accessor.pieces e.toList))
    (h : Narrowed repeats owned nodes nodes') :
    Narrowed repeats owned [.loop head bindings nodes] [.loop head bindings nodes'] := by
  obtain ⟨hrebound, hsettled', hcount, hreads, hfree⟩ := h
  refine ⟨?_, fun e he => ?_, fun a => ?_, fun x hx => ?_, fun a ha => ?_⟩
  · simp only [rebound, Node.rebound, hrebound]
  · simp only [expressions, Node.expressions, List.append_nil] at he
    exact (List.mem_append.mp he).elim (hsettled e) (hsettled' e)
  · have hsum := Nat.add_le_add_left (hcount a)
      (((head.collection :: bindings.map (·.value)).flatMap accessor.all).count a)
    simpa only [calls, expressions, Node.expressions, List.append_nil, List.flatMap_append,
      List.count_append] using hsum
  · simp only [reads, Node.reads, List.append_nil, List.mem_append] at hx ⊢
    exact hx.imp_right fun hx => mem_reads.mpr ((mem_reads.mp hx).imp_left (@hreads x))
  · rw [mem_freeCalls_loop] at ha ⊢
    rw [← hrebound]
    exact ha.imp_right (And.imp_left (Or.imp_right (@hfree a)))

/-! ### The round of a loop -/

/-- What is left of settled expressions after a round is settled. -/
theorem settled_round {wanted : Wanted} {taken : Names}
    (hheld : ∀ a ∈ repeated (wantedCalls wanted nodes), repeats a ∧ owned a)
    (hsettled : ∀ e ∈ expressions nodes, Settled repeats owned (accessor.pieces e.toList))
    {site : Site} (hsite : site ∈ sites [] nodes) :
    Settled repeats owned
        (accessor.pieces (rewritten wanted (roundHoists wanted nodes taken) site).toList) ∧
      accessor.all (rewritten wanted (roundHoists wanted nodes taken) site) =
        (accessor.all site.expression).filter fun a =>
          (heldBy wanted (roundHoists wanted nodes taken) site.shadowed a).isNone := by
  have hnamed := named_nameCalls taken (repeated (wantedCalls wanted nodes))
  refine settled_rewritten hnamed.candidate (hsettled _ ?_) fun a x hx => ?_
  · rw [← map_sites []]
    exact List.mem_map_of_mem hsite
  · obtain ⟨-, k, hk, rfl, -⟩ := exists_of_heldBy hx
    exact hheld _ (call_mem_repeated hk)

/-- A loop after the round that binds calls on its own variables. -/
def loopRound (head : LoopHead) (bindings : List Binding) (nodes : List Node) (taken : Names) :
    Node :=
  let hoists := roundHoists (ownCalls head) nodes taken
  .loop head (bindings ++ hoists.map Hoist.binding)
    (mapSites (rewritten (ownCalls head) hoists) [] nodes)

section Round

variable {head : LoopHead} {bindings : List Binding} {taken : Names}

/-- The calls of the round are on the loop's own variables. -/
theorem name_mem_of_mem_roundHoists {k : Hoist}
    (hk : k ∈ roundHoists (ownCalls head) nodes taken) :
    String.ofList k.call.name ∈ head.names := by
  obtain ⟨-, shadowed, hwanted⟩ := of_mem_repeated (call_mem_repeated hk)
  exact List.contains_iff_mem.mp (Bool.and_eq_true_iff.mp hwanted).1

/-- A variable of the round is made from its call only. -/
theorem all_of_mem_roundHoists {k : Hoist} (hk : k ∈ roundHoists (ownCalls head) nodes taken) :
    accessor.all k.binding.value = [k.call] :=
  Deduplicated.all_call (readable_of_mem_roundHoists hk)

/-- A round of deduplication inside a loop leaves the names the loop rebinds. -/
theorem rebound_loopRound :
    rebound [loopRound head bindings nodes taken] = rebound [.loop head bindings nodes] := by
  obtain ⟨hrebound, -⟩ := mapSites_shape
    (f := rewritten (ownCalls head) (roundHoists (ownCalls head) nodes taken)) [] nodes
  simp only [loopRound, rebound, Node.rebound, hrebound]

variable (hbody : ∀ e ∈ expressions nodes, Settled repeats owned (accessor.pieces e.toList))
  (hheld : ∀ a ∈ repeated (wantedCalls (ownCalls head) nodes), repeats a ∧ owned a)

include hbody hheld

/-- The expressions are settled as before. -/
theorem settled_loopRound (hhead : ∀ e ∈ head.collection :: bindings.map (·.value),
      Settled repeats owned (accessor.pieces e.toList)) {e : String}
    (he : e ∈ expressions [loopRound head bindings nodes taken]) :
    Settled repeats owned (accessor.pieces e.toList) := by
  simp only [loopRound, expressions, Node.expressions, List.append_nil, List.map_append,
    List.mem_append, List.cons_append, List.mem_cons, List.map_map] at he
  rcases he with rfl | (he | he) | he
  · exact hhead _ List.mem_cons_self
  · exact hhead e (List.mem_cons_of_mem _ he)
  · obtain ⟨k, hk, rfl⟩ := List.mem_map.mp he
    exact Deduplicated.good_call (keptByRounds_settled repeats owned)
      (readable_of_mem_roundHoists hk)
  · rw [expressions_mapSites] at he
    obtain ⟨site, hsite, rfl⟩ := List.mem_map.mp he
    exact (settled_round hheld hbody hsite).1

/-- No call occurs more often. -/
theorem count_loopRound_le (a : DottedPath) :
    (calls [loopRound head bindings nodes taken]).count a ≤
      (calls [.loop head bindings nodes]).count a := by
  unfold loopRound
  generalize hhoists : roundHoists (ownCalls head) nodes taken = hoists
  have hcount : (calls (mapSites (rewritten (ownCalls head) hoists) [] nodes)).count a +
      (hoists.map Hoist.call).count a ≤ (calls nodes).count a := by
    subst hhoists
    exact count_calls_round fun site hsite =>
      congrArg (List.count a) (settled_round hheld hbody hsite).2
  have hvalues : (hoists.map Hoist.binding).flatMap (accessor.all ·.value) =
      hoists.map Hoist.call := by
    subst hhoists
    rw [List.flatMap_map, List.map_eq_flatMap]
    exact List.flatMap_congr fun k hk => all_of_mem_roundHoists hk
  simp only [calls, expressions, Node.expressions, List.append_nil, List.map_append,
    List.cons_append, List.flatMap_cons, List.flatMap_append, List.flatMap_map,
    List.count_append] at hcount hvalues ⊢
  rw [hvalues]
  omega

/-- The loop reads no more: the new variables are read in the body only, and they are made from
calls on the loop's own variables. -/
theorem reads_loopRound_sub :
    reads [] [loopRound head bindings nodes taken] ⊆ reads [] [.loop head bindings nodes] := by
  intro x hx
  have hnamed := named_nameCalls taken (repeated (wantedCalls (ownCalls head) nodes))
  simp only [loopRound, reads, Node.reads, List.append_nil, List.map_append, List.flatMap_append,
    List.mem_append] at hx ⊢
  rcases hx with (hx | hx | hx) | hx
  · exact .inl (.inl hx)
  · exact .inl (.inr hx)
  · obtain ⟨b, hb, hx⟩ := List.mem_flatMap.mp hx
    obtain ⟨k, hk, rfl⟩ := List.mem_map.mp hb
    obtain ⟨hmentioned, hbound⟩ := mem_unbound.mp hx
    have hvariable : mentioned k.binding.value = [String.ofList k.call.name] :=
      mentioned_call (readable_of_mem_roundHoists hk)
    rw [hvariable, List.mem_singleton] at hmentioned
    exact absurd (hmentioned ▸ name_mem_of_mem_roundHoists hk) hbound
  · obtain ⟨hx, hbound⟩ := mem_reads.mp hx
    simp only [List.mem_append, List.map_map, not_or] at hbound
    refine .inr (mem_reads.mpr ⟨mem_reads_of_mapSites (fun site hsite hmentioned => ?_) hx, ?_⟩)
    · have hrewritten := mentioned_rewritten hnamed.candidate
        (standAlone_roundHoists (fun a ha => (hheld a ha).1)
          (fun e he => (hbody e he).standsAlone) hsite) hmentioned
      exact hrewritten.resolve_right hbound.1.2
    · simp only [List.mem_append, not_or]
      exact ⟨hbound.1.1, hbound.2⟩

/-- There are no new calls on names that no loop shadows. -/
theorem freeCalls_loopRound_sub :
    wantedCalls freeCalls [loopRound head bindings nodes taken] ⊆
      wantedCalls freeCalls [.loop head bindings nodes] := by
  intro a ha
  obtain ⟨hrebound, -⟩ := mapSites_shape
    (f := rewritten (ownCalls head) (roundHoists (ownCalls head) nodes taken)) [] nodes
  rw [loopRound, mem_freeCalls_loop, hrebound] at ha
  rw [mem_freeCalls_loop]
  refine ha.imp_right fun h => ?_
  obtain ⟨ha, hname⟩ := h
  refine ⟨?_, hname⟩
  rcases ha with ⟨b, hb, ha⟩ | ha
  · rcases List.mem_append.mp hb with hb | hb
    · exact .inl ⟨b, hb, ha⟩
    · obtain ⟨k, hk, rfl⟩ := List.mem_map.mp hb
      rw [all_of_mem_roundHoists hk, List.mem_singleton] at ha
      exact absurd (List.mem_append_left _ (ha ▸ name_mem_of_mem_roundHoists hk)) hname
  · rw [mem_freeCalls, sites_mapSites] at ha
    obtain ⟨_, hmem, ha, hshadowed⟩ := ha
    obtain ⟨site, hsite, rfl⟩ := List.mem_map.mp hmem
    rw [(settled_round hheld hbody hsite).2] at ha
    exact .inr (mem_freeCalls.mpr ⟨site, hsite, (List.mem_filter.mp ha).1, hshadowed⟩)

end Round

/-- **The round of a loop** binds calls on the loop's own variables: what it reads and which calls
it has on other variables does not change. -/
theorem round {head : LoopHead} {bindings : List Binding} {taken : Names}
    (hsettled : ∀ e ∈ expressions [.loop head bindings nodes],
      Settled repeats owned (accessor.pieces e.toList))
    (hheld : ∀ a ∈ repeated (wantedCalls (ownCalls head) nodes), repeats a ∧ owned a) :
    Narrowed repeats owned [.loop head bindings nodes]
      [loopRound head bindings nodes taken] := by
  simp only [expressions, Node.expressions, List.append_nil, List.forall_mem_append] at hsettled
  obtain ⟨hhead, hbody⟩ := hsettled
  exact {
    rebound_eq := rebound_loopRound
    settled _ he := settled_loopRound hbody hheld hhead he
    count_le := count_loopRound_le hbody hheld
    reads_sub := reads_loopRound_sub hbody hheld
    freeCalls_sub := freeCalls_loopRound_sub hbody hheld }

end Narrowed

/-! ### The pass over the loops -/

namespace CallsSettled

variable {nodes nodes' : List Node}

/-- The calls of a part of a tree are settled. -/
theorem part (h : CallsSettled repeats owned nodes)
    (hrebound : (rebound nodes').Sublist (rebound nodes))
    (hexpressions : (expressions nodes').Sublist (expressions nodes)) :
    CallsSettled repeats owned nodes' :=
  ⟨fun e he => h.settled e (hexpressions.subset he),
    fun a ha => h.repeats_of_count a
      (Nat.lt_of_lt_of_le ha ((hexpressions.flatMap accessor.all).count_le a)),
    fun a ha => h.owned_of_rebound a (hrebound.subset ha)⟩

/-- Settled calls of a list are settled in its first node and in the rest. -/
theorem cons {node : Node} (h : CallsSettled repeats owned (node :: nodes)) :
    CallsSettled repeats owned [node] ∧ CallsSettled repeats owned nodes := by
  constructor <;> apply h.part <;> simp [rebound, expressions]

/-- Settled calls of an existence check are settled in its body. -/
theorem existence {expression : String}
    (h : CallsSettled repeats owned [.existence expression nodes]) :
    CallsSettled repeats owned nodes := by
  apply h.part <;> simp [rebound, expressions, Node.rebound, Node.expressions]

/-- Settled calls of a conditional are settled in its first body and in the later branches. -/
theorem branch {condition : Option String} {branches : List Branch}
    (h : CallsSettled repeats owned [.conditional (⟨condition, nodes⟩ :: branches)]) :
    CallsSettled repeats owned nodes ∧ CallsSettled repeats owned [.conditional branches] := by
  constructor <;> apply h.part <;>
    simp [rebound, expressions, Node.rebound, Node.expressions, branchesRebind,
      branchesExpressions]

/-- Settled calls of a loop are settled in its body. -/
theorem loop {head : LoopHead} {bindings : List Binding}
    (h : CallsSettled repeats owned [.loop head bindings nodes]) :
    CallsSettled repeats owned nodes := by
  apply h.part <;> simp [rebound, expressions, Node.rebound, Node.expressions]

/-- What a loop binds is repeated, and on a variable that a loop assigns. -/
theorem of_ownCalls {head : LoopHead} {bindings : List Binding}
    (h : CallsSettled repeats owned [.loop head bindings nodes])
    (h' : Narrowed repeats owned nodes nodes') {a : DottedPath}
    (ha : a ∈ repeated (wantedCalls (ownCalls head) nodes')) : repeats a ∧ owned a := by
  obtain ⟨hcount, shadowed, hwanted⟩ := of_mem_repeated ha
  refine ⟨h.loop.repeats_of_count a (Nat.lt_of_lt_of_le hcount (h'.count_le a)), ?_⟩
  refine h.owned_of_rebound a ?_
  rw [rebound, Node.rebound]
  exact List.mem_append_left _ (List.mem_append_left _
    (List.contains_iff_mem.mp (Bool.and_eq_true_iff.mp hwanted).1))

end CallsSettled

mutual

/-- Deduplicating the loops of a node with settled calls narrows it. -/
theorem Node.narrowed_dedupLoops (node : Node) (h : CallsSettled repeats owned [node])
    (taken : Names) : Narrowed repeats owned [node] [(node.dedupLoops.run taken).1] := by
  match node with
  | .text _ | .comment _ | .echo .. | .host .. | .flag .. | .component .. =>
    rw [Node.dedupLoops]
    exact .refl h.settled
    all_goals simp
  | .conditional branches =>
    rw [Node.dedupLoops]
    exact narrowed_dedupBranches branches h taken
  | .existence expression body =>
    rw [Node.dedupLoops]
    exact (narrowed_dedupLoops body h.existence taken).existence
      (h.settled expression List.mem_cons_self)
  | .loop head bindings body =>
    have hsettled : ∀ e ∈ head.collection :: bindings.map (·.value),
        Settled repeats owned (accessor.pieces e.toList) := fun e he =>
      h.settled e (List.mem_append_left _ (List.mem_append_left _ he))
    have hbody := narrowed_dedupLoops body h.loop taken
    have hloop := hbody.loop hsettled
    rw [run_dedupLoops_loop]
    split
    · exact hloop
    · simp only [hoistRepeated_eq]
      exact hloop.trans (.round hloop.settled fun a => h.of_ownCalls hbody)

/-- **After the rounds of its loops** a tree reads no more. -/
theorem narrowed_dedupLoops (nodes : List Node) (h : CallsSettled repeats owned nodes)
    (taken : Names) : Narrowed repeats owned nodes ((dedupLoops nodes).run taken).1 := by
  match nodes with
  | [] => exact .refl h.settled
  | node :: nodes =>
    rw [run_dedupLoops_cons]
    exact (node.narrowed_dedupLoops h.cons.1 taken).cons (narrowed_dedupLoops nodes h.cons.2 _)

/-- The same of the branches of a conditional. -/
theorem narrowed_dedupBranches (branches : List Branch)
    (h : CallsSettled repeats owned [.conditional branches]) (taken : Names) :
    Narrowed repeats owned [.conditional branches]
      [.conditional ((dedupBranches branches).run taken).1] := by
  match branches with
  | [] => exact .refl h.settled
  | ⟨condition, body⟩ :: branches =>
    have hcondition : ∀ e ∈ condition, Settled repeats owned (accessor.pieces e.toList) := by
      intro e he
      refine h.settled e ?_
      simp [expressions, Node.expressions, branchesExpressions, Option.mem_def.mp he]
    rw [run_dedupBranches_cons]
    exact .branch hcondition (narrowed_dedupLoops body h.branch.1 taken)
      (narrowed_dedupBranches branches h.branch.2 _)
end

/-! ## The round ahead of the tree -/

variable {nodes : List Node}

/-- A call on a name that no loop shadows is on a free variable. -/
theorem mem_reads_of_mem_freeCalls {a : DottedPath} (ha : a ∈ wantedCalls freeCalls nodes)
    (hlocal : String.ofList a.name ∉ localNames nodes) :
    String.ofList a.name ∈ reads [] nodes := by
  obtain ⟨site, hsite, hmem, hshadowed⟩ := mem_freeCalls.mp ha
  exact mem_reads_of_mem_sites hsite (mem_mentioned_of_mem_all hmem) hshadowed hlocal

/-- **What is bound ahead of a deduplicated tree is read by the tree.** -/
theorem CallsSettled.mentioned_of_mem_dedup (h : CallsSettled repeats owned nodes)
    (hlocal : ∀ a, repeats a → String.ofList a.name ∉ localNames nodes) (taken : Names)
    {b : Binding} (hb : b ∈ ((dedup nodes).run taken).1.2) {x : String}
    (hx : x ∈ mentioned b.value) : x ∈ reads [] nodes := by
  have hloops := narrowed_dedupLoops nodes h taken
  rw [run_dedup_eq] at hb
  split at hb
  · cases hb
  · rw [hoistRepeated_eq] at hb
    obtain ⟨k, hk, rfl⟩ := List.mem_map.mp hb
    rw [Hoist.binding, mentioned_call (readable_of_mem_roundHoists hk), List.mem_singleton] at hx
    obtain ⟨hmem, -⟩ := List.mem_filter.mp (call_mem_repeated hk)
    have hcount := (of_mem_repeated (call_mem_repeated hk)).1
    have hrepeats := h.repeats_of_count _ (Nat.lt_of_lt_of_le hcount (hloops.count_le k.call))
    rw [hx]
    exact mem_reads_of_mem_freeCalls (hloops.freeCalls_sub (List.mem_eraseDups.mp hmem))
      (hlocal _ hrepeats)

/-- **A deduplicated tree reads what the tree read**, and the variables that are bound ahead of it.
-/
theorem CallsSettled.reads_dedup (h : CallsSettled repeats owned nodes) (taken : Names)
    {x : String}
    (hx : x ∈ reads [] ((dedup nodes).run taken).1.1) :
    x ∈ reads [] nodes ∨ x ∈ ((dedup nodes).run taken).1.2.map (·.name) := by
  have hloops := narrowed_dedupLoops nodes h taken
  rw [run_dedup_eq] at hx ⊢
  split at hx
  · rename_i hhost
    exact .inl (hloops.reads_sub hx)
  · rename_i hhost
    rw [if_neg hhost]
    rw [hoistRepeated_eq] at hx ⊢
    rw [List.map_map]
    have hnamed := named_nameCalls ((dedupLoops nodes).run taken).2
      (repeated (wantedCalls freeCalls ((dedupLoops nodes).run taken).1))
    by_cases hnew : x ∈ (roundHoists freeCalls ((dedupLoops nodes).run taken).1
        ((dedupLoops nodes).run taken).2).map Hoist.name
    · exact .inr hnew
    · refine .inl (hloops.reads_sub (mem_reads_of_mapSites (fun site hsite hmentioned => ?_) hx))
      refine (mentioned_rewritten hnamed.candidate (standAlone_roundHoists (fun a ha => ?_)
        (fun e he => (hloops.settled e he).standsAlone) hsite) hmentioned).resolve_right hnew
      exact h.repeats_of_count a
        (Nat.lt_of_lt_of_le (of_mem_repeated ha).1 (hloops.count_le a))

end Narrowed

end ViewCompiler.Template
