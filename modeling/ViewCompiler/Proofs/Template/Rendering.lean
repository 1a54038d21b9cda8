import ViewCompiler.Proofs.Template.Reads
import ViewCompiler.Proofs.Template.Sharing

/-!
# Rendering reads the free variables only

`run` takes what a component prints from the values of the variables that are free in its slots.
Here the slots themselves are run, in the variables around the component, and the component gets
the texts that they yield (`render`). Without host statements two runs from stores that agree on
the free variables of a tree print the same (`render_eq_of_freeVariables`).

A loop is where the bound names and the stores could come apart: its variables are bound in its
body only, but they stay assigned after it. The invariant is that the stores agree on some names,
among them all that are bound around the place. For the body the loop's own names join them, since
both runs assign the same values; after the loop they are forgotten again, so a later use of such a
name must be among the free variables.
-/

namespace ViewCompiler.Template

open Expression (mentioned)

/-! ## Running slots -/

/-- What a component prints: from its tag, its attributes, the text that its default slot yields,
and those that its named slots yield. -/
abbrev Components (host : Host) :=
  String → List (Argument host.Value) → String → List (String × String) → String

section Rendering

variable (host : Host) (components : Components host)

mutual

/-- What a node does when it is run together with the slots in it. -/
def Node.render : Node → Run host
  | .text content => Run.print fun _ => content
  | .comment _ => Run.print fun _ => ""
  | .echo expression escaped =>
    Run.print fun s => host.print expression escaped (host.eval expression s)
  | .host code true => Run.print fun s => host.shown (host.eval code s)
  | .host code false => host.perform code
  | .conditional branches => renderBranches branches
  | .loop head bindings body => fun s =>
    Run.forEach (fun element =>
      (Run.change fun s => host.bindAll bindings (host.assign head element s)).andThen
        (render body))
      (host.elements (host.eval head.collection s)) s
  | .existence expression body =>
    Run.choose (fun s => host.isPresent (host.eval expression s)) (render body)
      (Run.print fun _ => "")
  | .flag kind expression =>
    Run.print fun s => if host.holds (host.eval expression s) then flagText kind else ""
  | .component tag attributes content slots =>
    Run.print fun s => components tag (attributes.map (host.argument s)) (render content s).1
      (slotTexts slots s)

/-- Nodes are run in order, together with the slots in them. -/
def render : List Node → Run host
  | [] => Run.print fun _ => ""
  | node :: nodes => (node.render).andThen (render nodes)

/-- The first branch whose condition holds is run, together with the slots in it. -/
def renderBranches : List Branch → Run host
  | [] => Run.print fun _ => ""
  | ⟨condition, body⟩ :: branches =>
    Run.choose (fun s => condition.all fun e => host.holds (host.eval e s)) (render body)
      (renderBranches branches)

/-- The texts that named slots yield; what they assign stays in them. -/
def slotTexts : List NamedSlot → Store host.Value → List (String × String)
  | [], _ => []
  | ⟨name, body⟩ :: slots, s => (name, (render body s).1) :: slotTexts slots s
end

end Rendering

mutual

/-- The node is or holds host statements, in slots too. -/
def Node.hasStatements : Node → Bool
  | .host _ echo => !echo
  | .conditional branches => branchesHaveStatements branches
  | .loop _ _ body => hasStatements body
  | .existence _ body => hasStatements body
  | .component _ _ content slots => hasStatements content || slotsHaveStatements slots
  | _ => false

/-- Some node is or holds host statements, in slots too. -/
def hasStatements : List Node → Bool
  | [] => false
  | node :: nodes => node.hasStatements || hasStatements nodes

/-- Some branch holds host statements, in slots too. -/
def branchesHaveStatements : List Branch → Bool
  | [] => false
  | ⟨_, body⟩ :: branches => hasStatements body || branchesHaveStatements branches

/-- Some named slot holds host statements. -/
def slotsHaveStatements : List NamedSlot → Bool
  | [] => false
  | ⟨_, body⟩ :: slots => hasStatements body || slotsHaveStatements slots
end

/-! ## Stores that agree on names -/

/-- The stores agree on the names. -/
def SameOn {α : Type} (names : List String) (s s' : Store α) : Prop := ∀ x ∈ names, s x = s' x

section SameOn

variable {host : Host} {bound names : List String} {s s' : Store host.Value}

/-- Binding the same names first keeps that one list holds the other. -/
theorem append_subset_append {first : List String} (h : bound ⊆ names) :
    first ++ bound ⊆ first ++ names :=
  List.append_subset.mpr
    ⟨List.subset_append_left _ _, List.subset_append_of_subset_right _ h⟩

/-- Stores that agree on names agree on fewer of them. -/
theorem SameOn.mono {fewer : List String} (h : SameOn names s s') (hsub : fewer ⊆ names) :
    SameOn fewer s s' := fun x hx => h x (hsub hx)

/-- Assigning the same value to a variable makes the stores agree on it. -/
theorem SameOn.update (h : SameOn names s s') (x : String) (v : host.Value) :
    SameOn (x :: names) (Function.update s x v) (Function.update s' x v) := by
  intro y hy
  by_cases hyx : y = x
  · rw [hyx, Function.update_self, Function.update_self]
  · rw [Function.update_of_ne hyx, Function.update_of_ne hyx]
    exact h y ((List.mem_cons.mp hy).resolve_left hyx)

/-- An expression has the same value if the stores agree on what is bound and on what it reads
besides. -/
theorem SameOn.eval_eq (h : SameOn names s s') (hbound : bound ⊆ names) {expression : String}
    (hreads : unbound bound expression ⊆ names) :
    host.eval expression s = host.eval expression s' := by
  refine eval_congr fun x hx => h x ?_
  by_cases hxb : x ∈ bound
  · exact hbound hxb
  · exact hreads (mem_unbound.mpr ⟨hx, hxb⟩)

/-- A loop assigns its variables the same values in both stores. -/
theorem SameOn.assign (h : SameOn names s s') (head : LoopHead)
    (element : host.Value × host.Value) :
    SameOn (head.names ++ names) (host.assign head element s) (host.assign head element s') := by
  obtain ⟨collection, item, key⟩ := head
  have hitem := h.update item element.2
  cases key with
  | none => exact hitem
  | some key => exact hitem.update key element.1

/-- Local variables get the same values if the stores agree on what their expressions read. -/
theorem SameOn.bindAll (h : SameOn names s s') (hbound : bound ⊆ names) (bindings : List Binding)
    (hreads : bindings.flatMap (unbound bound ·.value) ⊆ names) :
    SameOn (bindings.map (·.name) ++ names) (host.bindAll bindings s)
      (host.bindAll bindings s') := by
  induction bindings generalizing names s s' with
  | nil => exact h
  | cons b bindings ih =>
    rw [List.flatMap_cons, List.append_subset] at hreads
    have hvalue : host.eval b.value s = host.eval b.value s' := h.eval_eq hbound hreads.1
    have hfirst : SameOn (b.name :: names) (host.bind b s) (host.bind b s') := by
      rw [Host.bind, Host.bind, hvalue]
      exact h.update b.name _
    have hrest := ih hfirst (List.subset_cons_of_subset _ hbound)
      (List.subset_cons_of_subset _ hreads.2)
    refine hrest.mono fun x hx => ?_
    simp only [List.map_cons, List.mem_append, List.mem_cons] at hx ⊢
    tauto

/-- An attribute is passed on with the same value. -/
theorem SameOn.argument_eq (h : SameOn names s s') (hbound : bound ⊆ names) {a : Attribute}
    (hreads : ∀ e ∈ a.expression?, unbound bound e ⊆ names) :
    host.argument s a = host.argument s' a := by
  obtain ⟨isBound, name, value⟩ := a
  cases value with
  | none => rfl
  | some value =>
    cases isBound with
    | false => rfl
    | true =>
      have hvalue : host.eval value s = host.eval value s' := h.eval_eq hbound (hreads value rfl)
      simp only [Host.argument, Option.map_some, if_true, hvalue]

/-- Stores that agree on what attributes read give the same arguments. -/
theorem SameOn.map_argument_eq (h : SameOn names s s') (hbound : bound ⊆ names)
    {attributes : List Attribute}
    (hreads : (attributes.filterMap Attribute.expression?).flatMap (unbound bound) ⊆ names) :
    attributes.map (host.argument s) = attributes.map (host.argument s') := by
  refine List.map_congr_left fun a ha => h.argument_eq hbound fun e he x hx => hreads ?_
  exact List.mem_flatMap.mpr ⟨e, List.mem_filterMap.mpr ⟨a, ha, he⟩, hx⟩

end SameOn

/-! ## Two runs -/

section Render

variable {host : Host} {components : Components host}

mutual

/-- From stores that agree on what a node without statements reads it renders the same. -/
theorem Node.relates_render {bound names : List String} (hbound : bound ⊆ names) (node : Node)
    (hpure : node.hasStatements = false) (hreads : node.reads bound ⊆ names) :
    Relates (SameOn names) (SameOn names) (node.render host components)
      (node.render host components) := by
  match node with
  | .text _ | .comment _ => exact relates_print fun _ _ _ => rfl
  | .echo expression escaped =>
    refine relates_print fun s s' hs => ?_
    rw [hs.eval_eq hbound hreads]
  | .host code false => cases hpure
  | .host code true =>
    refine relates_print fun s s' hs => ?_
    rw [hs.eval_eq hbound hreads]
  | .conditional branches => exact relates_renderBranches hbound branches hpure hreads
  | .loop head bindings body =>
    rw [Node.reads, List.append_subset, List.append_subset] at hreads
    obtain ⟨⟨hcollection, hvalues⟩, hbody⟩ := hreads
    have hinner : head.names ++ bound ⊆ head.names ++ names :=
      append_subset_append hbound
    have hassigned : ∀ element, Relates (SameOn names)
        (SameOn (bindings.map (·.name) ++ (head.names ++ names)))
        (Run.change fun s => host.bindAll bindings (host.assign head element s))
        (Run.change fun s => host.bindAll bindings (host.assign head element s)) := fun element =>
      relates_change fun s s' hs => (hs.assign head element).bindAll hinner bindings
        (List.subset_append_of_subset_right _ hvalues)
    have hrun := relates_render (append_subset_append hinner) body hpure
      (List.subset_append_of_subset_right (bindings.map (·.name))
        (List.subset_append_of_subset_right _ hbody))
    -- what the loop assigned is forgotten between its iterations
    have honce := fun element => ((hassigned element).andThen hrun).mono (fun _ _ hs => hs)
      fun _ _ hs => hs.mono (List.subset_append_of_subset_right _ (List.subset_append_right _ _))
    intro s s' hs
    simp only [Node.render, hs.eval_eq hbound hcollection]
    exact relates_forEach honce _ s s' hs
  | .existence expression body =>
    rw [Node.reads, List.append_subset] at hreads
    refine relates_choose (fun s s' hs => ?_) (relates_render hbound body hpure hreads.2)
      (relates_print fun _ _ _ => rfl)
    rw [hs.eval_eq hbound hreads.1]
  | .flag kind expression =>
    refine relates_print fun s s' hs => ?_
    rw [hs.eval_eq hbound hreads]
  | .component tag attributes content slots =>
    rw [Node.reads, List.append_subset, List.append_subset] at hreads
    obtain ⟨⟨hattributes, hcontent⟩, hslots⟩ := hreads
    rw [Node.hasStatements, Bool.or_eq_false_iff] at hpure
    refine relates_print fun s s' hs => ?_
    rw [hs.map_argument_eq hbound hattributes,
      (relates_render hbound content hpure.1 hcontent s s' hs).1,
      slotTexts_eq hbound slots hpure.2 hslots hs]

/-- From stores that agree on the bound names and on what is read besides, a tree prints the same,
and the stores still agree on these names. -/
theorem relates_render {bound names : List String} (hbound : bound ⊆ names) (nodes : List Node)
    (hpure : hasStatements nodes = false) (hreads : reads bound nodes ⊆ names) :
    Relates (SameOn names) (SameOn names) (render host components nodes)
      (render host components nodes) := by
  match nodes with
  | [] => exact relates_print fun _ _ _ => rfl
  | node :: nodes =>
    rw [hasStatements, Bool.or_eq_false_iff] at hpure
    rw [reads, List.append_subset] at hreads
    exact (node.relates_render hbound hpure.1 hreads.1).andThen
      (relates_render hbound nodes hpure.2 hreads.2)

/-- The same of the branches of a conditional. -/
theorem relates_renderBranches {bound names : List String} (hbound : bound ⊆ names)
    (branches : List Branch) (hpure : branchesHaveStatements branches = false)
    (hreads : branchesRead bound branches ⊆ names) :
    Relates (SameOn names) (SameOn names) (renderBranches host components branches)
      (renderBranches host components branches) := by
  match branches with
  | [] => exact relates_print fun _ _ _ => rfl
  | ⟨condition, body⟩ :: branches =>
    rw [branchesHaveStatements, Bool.or_eq_false_iff] at hpure
    rw [branchesRead, List.append_subset, List.append_subset] at hreads
    obtain ⟨⟨hcondition, hbody⟩, hbranches⟩ := hreads
    refine relates_choose (fun s s' hs => ?_) (relates_render hbound body hpure.1 hbody)
      (relates_renderBranches hbound branches hpure.2 hbranches)
    cases condition with
    | none => rfl
    | some e =>
      rw [Option.toList_some, List.flatMap_singleton] at hcondition
      rw [Option.all_some, Option.all_some, hs.eval_eq hbound hcondition]

/-- The same of the texts of slots. -/
theorem slotTexts_eq {bound names : List String} (hbound : bound ⊆ names) (slots : List NamedSlot)
    (hpure : slotsHaveStatements slots = false) (hreads : slotsRead bound slots ⊆ names)
    {s s' : Store host.Value} (hs : SameOn names s s') :
    slotTexts host components slots s = slotTexts host components slots s' := by
  match slots with
  | [] => rfl
  | ⟨name, body⟩ :: slots =>
    rw [slotsHaveStatements, Bool.or_eq_false_iff] at hpure
    rw [slotsRead, List.append_subset] at hreads
    rw [slotTexts, slotTexts, (relates_render hbound body hpure.1 hreads.1 s s' hs).1,
      slotTexts_eq hbound slots hpure.2 hreads.2 hs]
end

/-! ## The free variables -/

/-- **A tree without host statements prints the same in stores that agree on its free variables.**
-/
theorem render_eq_of_freeVariables {nodes : List Node} (hpure : hasStatements nodes = false)
    {s s' : Store host.Value} (hs : ∀ x ∈ freeVariables nodes [], s x = s' x) :
    (render host components nodes s).1 = (render host components nodes s').1 := by
  have hreads : SameOn (reads [] nodes) s s' := fun x hx => hs x (mem_freeVariables.mpr hx)
  exact (relates_render (List.nil_subset _) nodes hpure (List.Subset.refl _) s s' hreads).1

/-- A loop with a local variable and a slot, and its variable after the loop. -/
def leakingTree : List Node :=
  [.loop ⟨"$xs", "x", none⟩ [⟨"y", "$x"⟩]
      [.echo "$y" false, .component "card" [] [.echo "$x" true] []],
    .echo "$x" true]

/-- The local variable need not be the same at the start. -/
theorem render_eq_of_freeVariables_leakingTree :
    hasStatements leakingTree = false ∧
    (∀ x ∈ freeVariables leakingTree [], (x == "xs") = (x == "xs" || x == "y")) ∧
    (render Host.marking (fun _ _ content _ => content) leakingTree (· == "xs")).1 =
      (render Host.marking (fun _ _ content _ => content) leakingTree
        fun x => x == "xs" || x == "y").1 := by
  have hfree : ∀ x ∈ freeVariables leakingTree [], (x == "xs") = (x == "xs" || x == "y") := by
    intro x hx
    have hreads : reads [] leakingTree = ["xs", "x"] := by decide +kernel
    have hx : x ∈ ["xs", "x"] := hreads ▸ mem_freeVariables.mp hx
    have hne : (x == "y") = false := by
      rcases List.mem_cons.mp hx with rfl | hx
      · rfl
      · rw [List.mem_singleton.mp hx]
        rfl
    rw [hne, Bool.or_false]
  exact ⟨rfl, hfree, render_eq_of_freeVariables rfl hfree⟩

end Render

/-! ## Looking the variables up -/

section Lookup

variable (host : Host) (components : Components host) (unset : host.Value)

/-- The variables that were looked up have their values, and all others the same one. -/
def storeOf (found : List (String × host.Value)) : Store host.Value := fun x =>
  (found.lookup x).getD unset

/-- The host language whose components run their slots with the variables that were looked up. -/
abbrev Host.withComponents : Host where
  __ := host
  component tag arguments content slots found :=
    components tag arguments (render host components content (storeOf host unset found)).1
      (slotTexts host components slots (storeOf host unset found))

variable {host components unset}

/-- A store made of the values of some names agrees on these with the store they are from. -/
theorem sameOn_storeOf_lookup (names : List String) (s : Store host.Value) :
    SameOn names s (storeOf host unset (host.lookup s names)) := by
  intro x hx
  suffices hfound : (host.lookup s names).lookup x = some (s x) by
    rw [storeOf, hfound, Option.getD_some]
  induction names with
  | nil => cases hx
  | cons name names ih =>
    show List.lookup x ((name, s name) :: host.lookup s names) = _
    rw [List.lookup_cons]
    split
    · rename_i hname
      rw [beq_iff_eq.mp hname]
    · rename_i hname
      exact ih ((List.mem_cons.mp hx).resolve_left (beq_eq_false_iff_ne.mp hname))

/-- The loop of a host is that of the host without its components. -/
theorem forEach_withComponents {α : Type} (once : α → Run host) (as : List α) :
    @Run.forEach (host.withComponents components unset) α once as = Run.forEach once as := by
  induction as with
  | nil => rfl
  | cons a as ih =>
    rw [Run.forEach, Run.forEach, ih]
    rfl

mutual

/-- Running a node without statements on a host with components renders it. -/
theorem Node.run_withComponents (node : Node) (hpure : node.hasStatements = false) :
    node.run (host.withComponents components unset) = node.render host components := by
  match node with
  | .text _ | .comment _ | .echo .. | .flag .. | .host _ true => rfl
  | .host _ false => cases hpure
  | .conditional branches => exact runBranches_withComponents branches hpure
  | .loop head bindings body =>
    funext s
    simp only [Node.run, Node.render, run_withComponents body hpure]
    exact congrFun (forEach_withComponents _ _) s
  | .existence expression body =>
    rw [Node.run, Node.render, run_withComponents body hpure]
    rfl
  | .component tag attributes content slots =>
    rw [Node.hasStatements, Bool.or_eq_false_iff] at hpure
    refine funext fun (s : Store host.Value) => ?_
    let found := host.lookup s (reads [] content ++ slotsRead [] slots)
    have hs : SameOn (reads [] content ++ slotsRead [] slots) s (storeOf host unset found) :=
      sameOn_storeOf_lookup _ s
    have hcontent : (render host components content s).1 =
        (render host components content (storeOf host unset found)).1 :=
      (relates_render (List.nil_subset _) content hpure.1 (List.subset_append_left _ _) _ _ hs).1
    have hslots : slotTexts host components slots s =
        slotTexts host components slots (storeOf host unset found) :=
      slotTexts_eq (List.nil_subset _) slots hpure.2 (List.subset_append_right _ _) hs
    simp only [Node.run, Node.render, Run.print]
    rw [hcontent, hslots]
    rfl

/-- To render a component, the values of the variables that are free in its slots are enough. -/
theorem run_withComponents (nodes : List Node) (hpure : hasStatements nodes = false) :
    run (host.withComponents components unset) nodes = render host components nodes := by
  match nodes with
  | [] => rfl
  | node :: nodes =>
    rw [hasStatements, Bool.or_eq_false_iff] at hpure
    rw [run, render, node.run_withComponents hpure.1, run_withComponents nodes hpure.2]
    rfl

/-- The same of the branches of a conditional. -/
theorem runBranches_withComponents (branches : List Branch)
    (hpure : branchesHaveStatements branches = false) :
    runBranches (host.withComponents components unset) branches =
      renderBranches host components branches := by
  match branches with
  | [] => rfl
  | ⟨condition, body⟩ :: branches =>
    rw [branchesHaveStatements, Bool.or_eq_false_iff] at hpure
    rw [runBranches, renderBranches, run_withComponents body hpure.1,
      runBranches_withComponents branches hpure.2]
    rfl
end

end Lookup

end ViewCompiler.Template
