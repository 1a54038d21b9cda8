import Mathlib.Tactic.Tauto
import ViewCompiler.Proofs.Template.Running
import ViewCompiler.Template.Hoist

/-!
# Values that are held in variables

A tree whose expressions are changed prints the same if each changed expression has the value of
the old one wherever the variables that hold the values of calls do hold them (`relates_mapSites`).
`Shared` is what is known at a place of the tree: the stores agree except on some names, and the
variable of each hoist has the value of its call unless the call's variable is shadowed there. The
names that are excepted occur in the old tree nowhere. Host statements may assign any variable, so
where they run nothing may be held, but stores that agree except on internal names still do so
afterwards (`SurvivesHost.relates_perform`).
-/

namespace ViewCompiler.Template

open Expression (mentioned DottedPath)

/-! ## The variables of a tree -/

mutual

/-- The names in a node outside of its expressions: the variables that loops assign, the variables
of embedded host code, and the free variables of slots. -/
def Node.fixedNames : Node → List String
  | .host code _ => mentioned code
  | .conditional branches => branchesFixedNames branches
  | .loop head bindings body => head.names ++ bindings.map (·.name) ++ fixedNames body
  | .existence _ body => fixedNames body
  | .component _ _ content slots => reads [] content ++ slotsRead [] slots
  | _ => []

/-- The names in nodes outside of their expressions. -/
def fixedNames : List Node → List String
  | [] => []
  | node :: nodes => node.fixedNames ++ fixedNames nodes

/-- The names in branches outside of their expressions. -/
def branchesFixedNames : List Branch → List String
  | [] => []
  | ⟨_, body⟩ :: branches => fixedNames body ++ branchesFixedNames branches
end

mutual

/-- The local variables of the loops in a node, outside of slots. -/
def Node.localNames : Node → List String
  | .conditional branches => branchesLocalNames branches
  | .loop _ bindings body => bindings.map (·.name) ++ localNames body
  | .existence _ body => localNames body
  | _ => []

/-- The local variables of the loops in nodes, outside of slots. -/
def localNames : List Node → List String
  | [] => []
  | node :: nodes => node.localNames ++ localNames nodes

/-- The local variables of the loops in branches, outside of slots. -/
def branchesLocalNames : List Branch → List String
  | [] => []
  | ⟨_, body⟩ :: branches => localNames body ++ branchesLocalNames branches
end

mutual

/-- The expressions of a node, outside of slots, in order. -/
def Node.expressions : Node → List String
  | .echo expression _ => [expression]
  | .conditional branches => branchesExpressions branches
  | .loop head bindings body => head.collection :: bindings.map (·.value) ++ expressions body
  | .existence expression body => expression :: expressions body
  | .flag _ expression => [expression]
  | .component _ attributes _ _ => attributes.filterMap Attribute.expression?
  | _ => []

/-- The expressions of nodes, outside of slots, in order. -/
def expressions : List Node → List String
  | [] => []
  | node :: nodes => node.expressions ++ expressions nodes

/-- The expressions of branches, outside of slots, in order. -/
def branchesExpressions : List Branch → List String
  | [] => []
  | ⟨condition, body⟩ :: branches =>
    condition.toList ++ expressions body ++ branchesExpressions branches
end

mutual

/-- The names a node rebinds are among its fixed names. -/
theorem Node.rebound_sublist (node : Node) : node.rebound.Sublist node.fixedNames := by
  match node with
  | .text _ | .comment _ | .echo .. | .host .. | .flag .. | .component .. =>
    exact List.nil_sublist _
  | .conditional branches => exact branchesRebind_sublist branches
  | .loop head bindings body =>
    exact (List.sublist_append_left _ _).append (rebound_sublist body)
  | .existence expression body => exact rebound_sublist body

/-- What loops assign are fixed names. -/
theorem rebound_sublist (nodes : List Node) : (rebound nodes).Sublist (fixedNames nodes) := by
  match nodes with
  | [] => exact List.Sublist.slnil
  | node :: nodes => exact node.rebound_sublist.append (rebound_sublist nodes)

/-- The same of the branches of a conditional. -/
theorem branchesRebind_sublist (branches : List Branch) :
    (branchesRebind branches).Sublist (branchesFixedNames branches) := by
  match branches with
  | [] => exact List.Sublist.slnil
  | ⟨_, body⟩ :: branches =>
    exact (rebound_sublist body).append (branchesRebind_sublist branches)
end

/-- The variables that the expressions of nodes mention, outside of slots. -/
def mentions (nodes : List Node) : List String := (expressions nodes).flatMap mentioned

/-- The variables of a tree: those it mentions, those its loops assign, and those that are free in
its slots. -/
def treeVariables (nodes : List Node) : List String := fixedNames nodes ++ mentions nodes

/-! ## Values and variables -/

section Eval

variable {host : Host}

/-- The value of an expression depends on the variables that it mentions. -/
theorem eval_congr {expression : String} {s s' : Store host.Value}
    (h : ∀ x ∈ mentioned expression, s x = s' x) :
    host.eval expression s = host.eval expression s' := by
  have hlookup : host.lookup s (mentioned expression) = host.lookup s' (mentioned expression) :=
    List.map_congr_left fun x hx => by rw [h x hx]
  rw [Host.eval, Host.eval, hlookup]

/-- Assigning another variable does not change a value. -/
theorem eval_update {expression x : String} (hx : x ∉ mentioned expression) (s : Store host.Value)
    (v : host.Value) : host.eval expression (Function.update s x v) = host.eval expression s := by
  refine eval_congr fun y hy => ?_
  have hne : y ≠ x := by
    rintro rfl
    exact hx hy
  exact Function.update_of_ne hne v s

end Eval

/-! ## What is known at a place -/

/-- The stores agree except on some names, and every variable of a hoist whose call is not shadowed
holds the value of the call. -/
structure Shared (host : Host) (apart : List String) (hoists : List Hoist) (shadowed : List String)
    (s s' : Store host.Value) : Prop where
  agree : ∀ x, x ∉ apart → s x = s' x
  held : ∀ h ∈ hoists, String.ofList h.call.name ∉ shadowed →
    s' h.name = host.eval h.binding.value s'

/-- The hoists assign only names that are excepted, and each call mentions one variable. -/
structure Apart (apart : List String) (hoists : List Hoist) : Prop where
  name_mem : ∀ h ∈ hoists, h.name ∈ apart
  mentioned_call : ∀ h ∈ hoists, mentioned h.binding.value = [String.ofList h.call.name]

section Shared

variable {host : Host} {apart shadowed : List String} {hoists : List Hoist}
variable {s s' : Store host.Value}

/-- Less is known where more is shadowed. -/
theorem Shared.mono {shadowed' : List String} (h : Shared host apart hoists shadowed s s')
    (hsub : shadowed ⊆ shadowed') : Shared host apart hoists shadowed' s s' :=
  ⟨h.agree, fun hoist hmem hname => h.held hoist hmem fun hin => hname (hsub hin)⟩

/-- An expression without the excepted names has the same value in both stores. -/
theorem Shared.eval_eq (h : Shared host apart hoists shadowed s s') {expression : String}
    (hnames : ∀ x ∈ mentioned expression, x ∉ apart) :
    host.eval expression s = host.eval expression s' :=
  eval_congr fun x hx => h.agree x (hnames x hx)

/-- Assigning a variable that is shadowed, or is the variable of no call, keeps what is known. -/
theorem Shared.update (h : Shared host apart hoists shadowed s s') (happart : Apart apart hoists)
    {x : String} (hx : x ∉ apart)
    (hcall : x ∈ shadowed ∨ ∀ h ∈ hoists, String.ofList h.call.name ≠ x) (v : host.Value) :
    Shared host apart hoists shadowed (Function.update s x v) (Function.update s' x v) := by
  constructor
  · intro y hy
    by_cases hyx : y = x
    · subst hyx
      rw [Function.update_self, Function.update_self]
    · rw [Function.update_of_ne hyx, Function.update_of_ne hyx, h.agree y hy]
  · intro hoist hmem hshadowed
    have hname : hoist.name ≠ x := fun heq => hx (heq ▸ happart.name_mem hoist hmem)
    have hother : String.ofList hoist.call.name ≠ x := by
      rcases hcall with hin | hall
      · exact fun heq => hshadowed (heq ▸ hin)
      · exact hall hoist hmem
    have hmention : x ∉ mentioned hoist.binding.value := by
      rw [happart.mentioned_call hoist hmem, List.mem_singleton]
      exact hother.symm
    rw [Function.update_of_ne hname, eval_update hmention]
    exact h.held hoist hmem hshadowed

/-- Assigning the variables of a loop keeps what is known where they are shadowed. -/
theorem Shared.assign (h : Shared host apart hoists shadowed s s') (happart : Apart apart hoists)
    {head : LoopHead} (hapart : ∀ x ∈ head.names, x ∉ apart) (hshadowed : head.names ⊆ shadowed)
    (element : host.Value × host.Value) :
    Shared host apart hoists shadowed (host.assign head element s)
      (host.assign head element s') := by
  have hitem : head.item ∈ head.names := by simp [LoopHead.names]
  have hs := h.update happart (hapart _ hitem) (.inl (hshadowed hitem)) element.2
  unfold Host.assign
  cases hkey : head.key with
  | none => exact hs
  | some key =>
    have hmem : key ∈ head.names := by simp [LoopHead.names, hkey]
    exact hs.update happart (hapart _ hmem) (.inl (hshadowed hmem)) element.1

/-- Assigning local variables keeps what is known, if their changed values are the old ones. -/
theorem Shared.bindAll (h : Shared host apart hoists shadowed s s') (happart : Apart apart hoists)
    {bindings : List Binding} {f : String → String}
    (hf : ∀ b ∈ bindings, ∀ s s', Shared host apart hoists shadowed s s' →
      host.eval b.value s = host.eval (f b.value) s')
    (hapart : ∀ b ∈ bindings, b.name ∉ apart)
    (hcall : ∀ b ∈ bindings, ∀ h ∈ hoists, String.ofList h.call.name ≠ b.name) :
    Shared host apart hoists shadowed (host.bindAll bindings s)
      (host.bindAll (bindings.map fun b => { b with value := f b.value }) s') := by
  induction bindings generalizing s s' with
  | nil => exact h
  | cons b bindings ih =>
    have hb := List.mem_cons_self (a := b) (l := bindings)
    refine ih ?_ (fun b' hb' => hf b' (List.mem_cons_of_mem b hb'))
      (fun b' hb' => hapart b' (List.mem_cons_of_mem b hb'))
      (fun b' hb' => hcall b' (List.mem_cons_of_mem b hb'))
    show Shared host apart hoists shadowed (Function.update s b.name (host.eval b.value s))
      (Function.update s' b.name (host.eval (f b.value) s'))
    rw [hf b hb s s' h]
    exact h.update happart (hapart b hb) (.inr (hcall b hb)) _

end Shared

/-! ## Host statements -/

/-- Host statements know the variables of the program and the internal variables that they mention:
from stores that differ in other internal variables only, they print the same and leave stores that
differ in these only. -/
structure Host.Ordinary (host : Host) : Prop where
  perform : ∀ {code : String} {apart : List String} {s s' : Store host.Value},
    (∀ x ∈ apart, isInternal x = true ∧ x ∉ mentioned code) → (∀ x, x ∉ apart → s x = s' x) →
    (host.perform code s).1 = (host.perform code s').1 ∧
      ∀ x, x ∉ apart → (host.perform code s).2 x = (host.perform code s').2 x

/-- What is known survives host statements: no variable is held, and the stores agree except on
internal names. -/
structure SurvivesHost (host : Host) (apart : List String) (hoists : List Hoist) : Prop where
  ordinary : host.Ordinary
  isInternal : ∀ x ∈ apart, isInternal x = true
  hoists_eq : hoists = []

/-- Host statements that mention no excepted name keep what survives them. -/
theorem SurvivesHost.relates_perform {host : Host} {apart shadowed : List String}
    {hoists : List Hoist} (h : SurvivesHost host apart hoists) {code : String}
    (hcode : ∀ x ∈ mentioned code, x ∉ apart) :
    Relates (Shared host apart hoists shadowed) (Shared host apart hoists shadowed)
      (host.perform code) (host.perform code) := by
  intro s s' hs
  have happart : ∀ x ∈ apart, Template.isInternal x = true ∧ x ∉ mentioned code := fun x hx =>
    ⟨h.isInternal x hx, fun hmem => hcode x hmem hx⟩
  obtain ⟨hout, hagree⟩ := h.ordinary.perform happart hs.agree
  refine ⟨hout, hagree, ?_⟩
  rw [h.hoists_eq]
  exact fun k hk => absurd hk List.not_mem_nil

/-! ## A tree with its expressions changed -/

section MapSites

variable {host : Host} {apart : List String} {hoists : List Hoist} {f : Site → String}

/-- A changed expression has the value of the old one wherever the hoists are held that are not
shadowed there, and is an echo of the default slot exactly if the old one is. -/
structure Keeps (host : Host) (apart : List String) (hoists : List Hoist) (f : Site → String)
    (site : Site) : Prop where
  eval_eq : ∀ s s', Shared host apart hoists site.shadowed s s' →
    host.eval site.expression s = host.eval (f site) s'
  isSlotEcho_eq : Node.isSlotEcho (f site) = Node.isSlotEcho site.expression

/-- A changed echo prints the same. -/
theorem Keeps.print_eq {site : Site} (h : Keeps host apart hoists f site) (escaped : Bool)
    {s s' : Store host.Value} (hs : Shared host apart hoists site.shadowed s s') :
    host.print site.expression escaped (host.eval site.expression s) =
      host.print (f site) escaped (host.eval (f site) s') := by
  rw [Host.print, Host.print, h.isSlotEcho_eq, h.eval_eq s s' hs]

/-- A changed attribute has the same value. -/
theorem argument_mapExpression {shadowed : List String} {a : Attribute}
    (h : ∀ e ∈ a.expression?, Keeps host apart hoists f ⟨shadowed, e⟩)
    {s s' : Store host.Value} (hs : Shared host apart hoists shadowed s s') :
    host.argument s' (a.mapExpression fun e => f ⟨shadowed, e⟩) = host.argument s a := by
  obtain ⟨bound, name, value⟩ := a
  cases bound with
  | false => rfl
  | true =>
    cases value with
    | none => rfl
    | some e =>
      have := (h e rfl).eval_eq s s' hs
      simp only [Attribute.mapExpression, Host.argument, if_true, Option.map_some, this]

/-- The same variables have the same values, if they are not excepted. -/
theorem lookup_eq {names shadowed : List String} (h : ∀ x ∈ names, x ∉ apart)
    {s s' : Store host.Value} (hs : Shared host apart hoists shadowed s s') :
    host.lookup s names = host.lookup s' names :=
  List.map_congr_left fun x hx => by rw [hs.agree x (h x hx)]

mutual

/-- A changed node prints the same. -/
theorem Node.relates_mapSites (happart : Apart apart hoists) (shadowed : List String) (node : Node)
    (hf : ∀ site ∈ node.sites shadowed, Keeps host apart hoists f site)
    (hfixed : ∀ x ∈ node.fixedNames, x ∉ apart)
    (hlocal : ∀ x ∈ node.localNames, ∀ h ∈ hoists, String.ofList h.call.name ≠ x)
    (hhost : node.runsHost = true → SurvivesHost host apart hoists) :
    Relates (Shared host apart hoists shadowed)
      (Shared host apart hoists (node.rebound ++ shadowed))
      (node.run host) ((node.mapSites f shadowed).run host) := by
  match node with
  | .text _ | .comment _ => exact relates_print fun _ _ _ => rfl
  | .echo expression escaped =>
    exact relates_print fun s s' hs => (hf _ List.mem_cons_self).print_eq escaped hs
  | .host code false => exact (hhost rfl).relates_perform hfixed
  | .host code true =>
    exact relates_print fun s s' hs => congrArg host.shown (hs.eval_eq hfixed)
  | .conditional branches =>
    exact relates_mapBranchSites happart shadowed branches hf hfixed hlocal hhost
  | .loop head bindings body =>
    simp only [Node.sites, List.mem_append, List.mem_cons, List.mem_map] at hf
    simp only [Node.fixedNames, List.mem_append, List.mem_map] at hfixed
    simp only [Node.localNames, List.mem_append, List.mem_map] at hlocal
    let inner := head.names ++ rebound body ++ shadowed
    have hbody : Relates _ _ (run host body) (run host (mapSites f inner body)) :=
      relates_mapSites happart inner body (fun site hsite => hf site (.inr hsite))
        (fun x hx => hfixed x (.inr hx)) (fun x hx => hlocal x (.inr hx)) hhost
    -- What the body shadows is shadowed at its start already: an iteration keeps what is known.
    have hkept : rebound body ++ inner ⊆ inner := by
      intro x hx
      simp only [inner, List.mem_append] at hx ⊢
      tauto
    have hassign : ∀ element, Relates (Shared host apart hoists inner)
        (Shared host apart hoists inner)
        (Run.change fun s => host.bindAll bindings (host.assign head element s))
        (Run.change fun s =>
          host.bindAll (bindings.map fun b => { b with value := f ⟨inner, b.value⟩ })
          (host.assign head element s)) := by
      refine fun element => relates_change fun s s' hs =>
        Shared.bindAll (f := fun e => f ⟨inner, e⟩)
        (hs.assign happart ?_ ?_ element) happart ?_ ?_ ?_
      · exact fun x hx => hfixed x (.inl (.inl hx))
      · exact fun x hx => List.mem_append_left _ (List.mem_append_left _ hx)
      · exact fun b hb => (hf _ (.inl (.inr ⟨b, hb, rfl⟩))).eval_eq
      · exact fun b hb => hfixed _ (.inl (.inr ⟨b, hb, rfl⟩))
      · exact fun b hb => hlocal _ (.inl ⟨b, hb, rfl⟩)
    have honce := fun element =>
      (hassign element).andThen (hbody.mono (fun _ _ hs => hs) fun _ _ hs => hs.mono hkept)
    intro s s' hs
    have hcollection := (hf _ (.inl (.inl rfl))).eval_eq s s' hs
    simp only [Node.run, Node.mapSites, ← hcollection]
    obtain ⟨hout, hpost⟩ :=
      relates_forEach honce (host.elements (host.eval head.collection s)) s s'
      (hs.mono (List.subset_append_right _ _))
    refine ⟨hout, hpost.mono ?_⟩
    exact List.Subset.refl _
  | .existence expression body =>
    simp only [Node.sites, List.mem_cons] at hf
    have hbody := relates_mapSites happart shadowed body (fun site hsite => hf site (.inr hsite))
      hfixed hlocal hhost
    refine relates_choose (fun s s' hs => ?_) hbody ?_
    · rw [(hf _ (.inl rfl)).eval_eq s s' hs]
    · exact (relates_print fun _ _ _ => rfl).mono (fun _ _ hs => hs) fun _ _ hs =>
        hs.mono (List.subset_append_right _ _)
  | .flag kind expression =>
    refine relates_print fun s s' hs => ?_
    rw [(hf _ List.mem_cons_self).eval_eq s s' hs]
  | .component tag attributes content slots =>
    refine relates_print fun s s' hs => ?_
    have hattributes : (attributes.map (·.mapExpression fun e => f ⟨shadowed, e⟩)).map
        (host.argument s') = attributes.map (host.argument s) := by
      rw [List.map_map]
      refine List.map_congr_left fun a ha => argument_mapExpression (fun e he => hf _ ?_) hs
      exact List.mem_map_of_mem (List.mem_filterMap.mpr ⟨a, ha, he⟩)
    have hlookup : host.lookup s (reads [] content ++ slotsRead [] slots) =
        host.lookup s' (reads [] content ++ slotsRead [] slots) := lookup_eq hfixed hs
    rw [hattributes, hlookup]

/-- Changed nodes print the same. -/
theorem relates_mapSites (happart : Apart apart hoists) (shadowed : List String)
    (nodes : List Node)
    (hf : ∀ site ∈ sites shadowed nodes, Keeps host apart hoists f site)
    (hfixed : ∀ x ∈ fixedNames nodes, x ∉ apart)
    (hlocal : ∀ x ∈ localNames nodes, ∀ h ∈ hoists, String.ofList h.call.name ≠ x)
    (hhost : runsHost nodes = true → SurvivesHost host apart hoists) :
    Relates (Shared host apart hoists shadowed)
      (Shared host apart hoists (rebound nodes ++ shadowed))
      (run host nodes) (run host (mapSites f shadowed nodes)) := by
  match nodes with
  | [] => exact relates_print fun _ _ _ => rfl
  | node :: nodes =>
    simp only [sites, fixedNames, localNames, List.mem_append] at hf hfixed hlocal
    simp only [runsHost, Bool.or_eq_true] at hhost
    have hfirst :=
      Node.relates_mapSites happart shadowed node (fun site hsite => hf site (.inl hsite))
      (fun x hx => hfixed x (.inl hx)) (fun x hx => hlocal x (.inl hx)) (fun h => hhost (.inl h))
    have hrest := relates_mapSites happart (node.rebound ++ shadowed) nodes
      (fun site hsite => hf site (.inr hsite)) (fun x hx => hfixed x (.inr hx))
      (fun x hx => hlocal x (.inr hx)) fun h => hhost (.inr h)
    refine (hfirst.andThen hrest).mono (fun _ _ hs => hs) fun _ _ hs => hs.mono fun x hx => ?_
    simp only [rebound, List.mem_append] at hx ⊢
    tauto

/-- Changed branches print the same. -/
theorem relates_mapBranchSites (happart : Apart apart hoists) (shadowed : List String)
    (branches : List Branch)
    (hf : ∀ site ∈ branchSites shadowed branches, Keeps host apart hoists f site)
    (hfixed : ∀ x ∈ branchesFixedNames branches, x ∉ apart)
    (hlocal : ∀ x ∈ branchesLocalNames branches, ∀ h ∈ hoists, String.ofList h.call.name ≠ x)
    (hhost : branchesRunHost branches = true → SurvivesHost host apart hoists) :
    Relates (Shared host apart hoists shadowed)
      (Shared host apart hoists (branchesRebind branches ++ shadowed))
      (runBranches host branches) (runBranches host (mapBranchSites f shadowed branches)) := by
  match branches with
  | [] => exact relates_print fun _ _ _ => rfl
  | ⟨condition, body⟩ :: branches =>
    simp only [branchSites, branchesFixedNames, branchesLocalNames,
      List.mem_append] at hf hfixed hlocal
    simp only [branchesRunHost, Bool.or_eq_true] at hhost
    have hbody := relates_mapSites happart shadowed body
      (fun site hsite => hf site (.inl (.inr hsite))) (fun x hx => hfixed x (.inl hx))
      (fun x hx => hlocal x (.inl hx)) fun h => hhost (.inl h)
    have hrest := relates_mapBranchSites happart shadowed branches
      (fun site hsite => hf site (.inr hsite)) (fun x hx => hfixed x (.inr hx))
      (fun x hx => hlocal x (.inr hx)) fun h => hhost (.inr h)
    refine relates_choose (fun s s' hs => ?_)
      (hbody.mono (fun _ _ hs => hs) fun _ _ hs => hs.mono ?_)
      (hrest.mono (fun _ _ hs => hs) fun _ _ hs => hs.mono ?_)
    · cases condition with
      | none => rfl
      | some e =>
        have := (hf ⟨shadowed, e⟩ (.inl (.inl (by simp)))).eval_eq s s' hs
        simp only [Option.all_some, Option.map_some, this]
    · intro x hx
      simp only [branchesRebind, List.mem_append] at hx ⊢
      tauto
    · intro x hx
      simp only [branchesRebind, List.mem_append] at hx ⊢
      tauto
end

end MapSites

end ViewCompiler.Template
