import Mathlib.Data.List.Flatten
import ViewCompiler.Proofs.Template.Hoisting

/-!
# Rounds of hoisting keep what a tree prints

A round ahead of a tree is sound if its names are new to the tree and the calls that it replaces
stand by themselves (`SoundRound.run_eq`). `Deduplicated` relates a tree and the tree after some
rounds in its loops: run from stores that agree except on the new names they print the same, and
the new tree holds nothing but the old variables and new ones, expressions as they are asked for,
and no call that is counted more often than before. The relation is transitive and goes through
every construct, and a loop adds one round of its own (`Deduplicated.round`).
-/

namespace ViewCompiler.Template

open Expression

section Rounds

variable {host : Host}

/-! ## The variables of a round -/

/-- What makes a round ahead of a tree sound: its names are new to the tree, its calls are on
variables of the program, and the calls that it replaces stand by themselves. -/
structure SoundRound (wanted : Wanted) (hoists : List Hoist) (nodes : List Node) : Prop where
  named : NamedByCall hoists
  nodup : (hoists.map Hoist.name).Nodup
  notMem : ∀ x ∈ treeVariables nodes, x ∉ hoists.map Hoist.name
  readable : ∀ h ∈ hoists, h.call.Readable
  notInternal : ∀ h ∈ hoists, isInternal (String.ofList h.call.name) = false
  localNames_internal : ∀ x ∈ localNames nodes, isInternal x = true
  runsHost_eq : runsHost nodes = false
  wanted_notMem : ∀ name shadowed, wanted name shadowed = true → name ∉ shadowed
  standAlone : ∀ site ∈ sites [] nodes, StandAlone wanted hoists site

/-- A name of a hoist is internal. -/
theorem NamedByCall.isInternal {hoists : List Hoist} (h : NamedByCall hoists) {x : String}
    (hx : x ∈ hoists.map Hoist.name) : isInternal x = true := by
  obtain ⟨k, hk, rfl⟩ := List.mem_map.mp hx
  obtain ⟨n, hn⟩ := h k hk
  rw [hn]
  exact isInternal_candidate k.call n

namespace SoundRound

variable {wanted : Wanted} {hoists : List Hoist} {nodes : List Node}

/-- The hoists of a sound round assign names that are apart from the tree. -/
theorem apart (h : SoundRound wanted hoists nodes) : Apart (hoists.map Hoist.name) hoists :=
  ⟨fun _ hk => List.mem_map_of_mem hk, fun k hk => mentioned_call (h.readable k hk)⟩

/-- The variable of a call is the variable of no hoist. -/
theorem call_notMem (h : SoundRound wanted hoists nodes) {k : Hoist} (hk : k ∈ hoists) :
    String.ofList k.call.name ∉ hoists.map Hoist.name := by
  intro hmem
  have hinternal := h.named.isInternal hmem
  rw [h.notInternal k hk] at hinternal
  exact absurd hinternal (by decide)

/-- **After the assignments of a round** every variable holds the value of its call. -/
theorem shared_bindAll (h : SoundRound wanted hoists nodes) {s s' : Store host.Value}
    (hs : Shared host (hoists.map Hoist.name) [] [] s s') :
    Shared host (hoists.map Hoist.name) hoists [] s
      (host.bindAll (hoists.map Hoist.binding) s') := by
  suffices hstep : ∀ done todo : List Hoist, done ++ todo = hoists → ∀ s',
      Shared host (hoists.map Hoist.name) done [] s s' →
      Shared host (hoists.map Hoist.name) (done ++ todo) [] s
        (host.bindAll (todo.map Hoist.binding) s') from
    hstep [] hoists rfl s' hs
  intro done todo
  induction todo generalizing done with
  | nil =>
    intro heq s' hs
    rw [List.append_nil]
    exact hs
  | cons k todo ih =>
    intro heq s' hs
    have hk : k ∈ hoists := heq ▸ List.mem_append_right _ List.mem_cons_self
    have hassoc : done ++ k :: todo = (done ++ [k]) ++ todo := by simp
    rw [hassoc]
    refine ih (done ++ [k]) (hassoc ▸ heq) _ ?_
    -- Assigning the new variable changes the value of no call, and none of the variables before.
    have hvalue : ∀ other ∈ hoists, k.name ∉ mentioned other.binding.value := by
      intro other hother
      rw [h.apart.mentioned_call other hother, List.mem_singleton]
      rintro heq'
      exact h.call_notMem hother (heq' ▸ List.mem_map_of_mem hk)
    have hne : ∀ other ∈ done, other.name ≠ k.name := by
      intro other hother heq'
      have hnodup := h.nodup
      rw [← heq, List.map_append, List.nodup_append] at hnodup
      exact hnodup.2.2 _ (List.mem_map_of_mem hother) _ (by simp) heq'
    have hdone : ∀ other ∈ done, other ∈ hoists := fun other hother =>
      heq ▸ List.mem_append_left _ hother
    constructor
    · intro x hx
      have hxk : x ≠ k.name := fun hxk => hx (hxk ▸ List.mem_map_of_mem hk)
      show s x = Function.update s' k.name _ x
      rw [Function.update_of_ne hxk]
      exact hs.agree x hx
    · intro other hother _
      show Function.update s' k.name _ other.name = host.eval _ (Function.update s' k.name _)
      rcases List.mem_append.mp hother with hother | hother
      · rw [Function.update_of_ne (hne other hother),
          eval_update (hvalue other (hdone other hother))]
        exact hs.held other hother (by simp)
      · obtain rfl := List.mem_singleton.mp hother
        rw [Function.update_self, eval_update (hvalue other hk)]

/-- **A tree prints the same after a round**, with the assignments of the round ahead of it. -/
theorem run_eq (h : SoundRound wanted hoists nodes) (hlaw : host.Lawful) {s s' : Store host.Value}
    (hs : Shared host (hoists.map Hoist.name) [] [] s s') :
    (run host nodes s).1 = (run host (mapSites (rewritten wanted hoists) [] nodes)
        (host.bindAll (hoists.map Hoist.binding) s')).1 ∧
      Shared host (hoists.map Hoist.name) [] [] (run host nodes s).2
        (run host (mapSites (rewritten wanted hoists) [] nodes)
          (host.bindAll (hoists.map Hoist.binding) s')).2 := by
  have hkeeps : ∀ site ∈ sites [] nodes,
      Keeps host (hoists.map Hoist.name) hoists (rewritten wanted hoists) site := by
    intro site hsite
    refine keeps_rewritten hlaw h.named h.wanted_notMem (h.standAlone site hsite) fun x hx => ?_
    refine h.notMem x (List.mem_append_right _ (List.mem_flatMap.mpr ⟨site.expression, ?_, hx⟩))
    rw [← map_sites []]
    exact List.mem_map_of_mem hsite
  have hlocal : ∀ x ∈ localNames nodes, ∀ k ∈ hoists, String.ofList k.call.name ≠ x := by
    rintro x hx k hk rfl
    have hinternal := h.localNames_internal _ hx
    rw [h.notInternal k hk] at hinternal
    exact absurd hinternal (by decide)
  obtain ⟨hout, hpost⟩ := relates_mapSites h.apart [] nodes hkeeps
    (fun x hx => h.notMem x (List.mem_append_left _ hx)) hlocal
    (fun hhost => absurd (h.runsHost_eq.symm.trans hhost) Bool.false_ne_true) _ _
    (h.shared_bindAll hs)
  exact ⟨hout, hpost.agree, fun k hk => absurd hk (List.not_mem_nil)⟩

end SoundRound

/-! ## Trees after some rounds -/

/-- The second tree is the first one after some rounds of hoisting in its loops, with the new
names: run from stores that agree on all other names, both print the same. -/
structure Deduplicated (host : Host) (good : List CallPiece → Prop) (counted : DottedPath → Prop)
    (new : List String) (nodes nodes' : List Node) : Prop where
  relates :
    Relates (Shared host new [] []) (Shared host new [] []) (run host nodes) (run host nodes')
  rebound_eq : rebound nodes' = rebound nodes
  runsHost_eq : runsHost nodes' = runsHost nodes
  fixedNames_sub : ∀ x ∈ fixedNames nodes', x ∈ fixedNames nodes ∨ x ∈ new
  mentions_sub : ∀ x ∈ mentions nodes', x ∈ mentions nodes ∨ x ∈ new
  localNames_sub : ∀ x ∈ localNames nodes', x ∈ localNames nodes ∨ x ∈ new
  good : ∀ e ∈ expressions nodes', good (accessor.pieces e.toList)
  count_le : ∀ a, counted a → (calls nodes').count a ≤ (calls nodes).count a

variable {good : List CallPiece → Prop} {moved counted : DottedPath → Prop}

/-- Two comparisons one after the other: a store between them takes each name from the side that
does not except it. -/
theorem Relates.trans {first second : List String} {r r' r'' : Run host}
    (h : Relates (Shared host first [] []) (Shared host first [] []) r r')
    (h' : Relates (Shared host second [] []) (Shared host second [] []) r' r'') :
    Relates (Shared host (first ++ second) [] []) (Shared host (first ++ second) [] []) r r'' := by
  intro s s'' hs
  let middle : Store host.Value := fun x => if x ∈ first then s'' x else s x
  have hfirst : Shared host first [] [] s middle :=
    ⟨fun x hx => (if_neg hx).symm, fun k hk => absurd hk List.not_mem_nil⟩
  have hsecond : Shared host second [] [] middle s'' := by
    refine ⟨fun x hx => ?_, fun k hk => absurd hk List.not_mem_nil⟩
    by_cases hxf : x ∈ first
    · exact if_pos hxf
    · exact (if_neg hxf).trans (hs.agree x (by simp [hxf, hx]))
  obtain ⟨hout, hpost⟩ := h _ _ hfirst
  obtain ⟨hout', hpost'⟩ := h' _ _ hsecond
  refine ⟨hout.trans hout', fun x hx => ?_, fun k hk => absurd hk List.not_mem_nil⟩
  rw [List.mem_append, not_or] at hx
  exact (hpost.agree x hx.1).trans (hpost'.agree x hx.2)

namespace Deduplicated

variable {new new' : List String} {nodes nodes' nodes'' : List Node}

/-- A tree that does not know the new names is the same after no round. -/
theorem refl (hnew : ∀ x ∈ treeVariables nodes, x ∉ new)
    (hinternal : ∀ x ∈ new, isInternal x = true) (hhost : runsHost nodes = true → host.Ordinary)
    (hgood : ∀ e ∈ expressions nodes, good (accessor.pieces e.toList)) :
    Deduplicated host good counted new nodes nodes := by
  refine ⟨?_, rfl, rfl, fun _ => .inl, fun _ => .inl, fun _ => .inl, hgood,
    fun _ _ => Nat.le_refl _⟩
  have happart : Apart new [] := ⟨by simp, by simp⟩
  have hkeeps : ∀ site ∈ sites [] nodes, Keeps host new [] Site.expression site := by
    intro site hsite
    refine ⟨fun s s' hs => hs.eval_eq fun x hx => hnew x ?_, rfl⟩
    refine List.mem_append_right _ (List.mem_flatMap.mpr ⟨site.expression, ?_, hx⟩)
    rw [← map_sites []]
    exact List.mem_map_of_mem hsite
  have hsame := relates_mapSites happart [] nodes hkeeps
    (fun x hx => hnew x (List.mem_append_left _ hx)) (by simp)
    fun h => ⟨hhost h, hinternal, rfl⟩
  rw [mapSites_self] at hsame
  exact hsame.mono (fun _ _ hs => hs) fun _ _ hs =>
    ⟨hs.agree, fun k hk => absurd hk List.not_mem_nil⟩

/-- Rounds after rounds deduplicate the first tree. -/
theorem trans (h : Deduplicated host good counted new nodes nodes')
    (h' : Deduplicated host good counted new' nodes' nodes'') :
    Deduplicated host good counted (new ++ new') nodes nodes'' := by
  have hsub : ∀ {x : String} {a b c : List String}, (x ∈ c → x ∈ b ∨ x ∈ new') →
      (x ∈ b → x ∈ a ∨ x ∈ new) → x ∈ c → x ∈ a ∨ x ∈ new ++ new' := by
    intro x a b c hcb hba hx
    rw [List.mem_append]
    tauto
  exact ⟨h.relates.trans h'.relates, h'.rebound_eq.trans h.rebound_eq,
    h'.runsHost_eq.trans h.runsHost_eq,
    fun x => hsub (h'.fixedNames_sub x) (h.fixedNames_sub x),
    fun x => hsub (h'.mentions_sub x) (h.mentions_sub x),
    fun x => hsub (h'.localNames_sub x) (h.localNames_sub x), h'.good,
    fun a ha => (h'.count_le a ha).trans (h.count_le a ha)⟩

/-! ## Constructs -/

/-- Running a list of one node is running the node. -/
theorem run_singleton (node : Node) : run host [node] = node.run host := by
  funext s
  show ((node.run host s).1 ++ "", _) = _
  rw [String.append_empty]
  rfl

/-- Nodes after a node. -/
theorem cons {node node' : Node} (h : Deduplicated host good counted new [node] [node'])
    (h' : Deduplicated host good counted new nodes nodes') :
    Deduplicated host good counted new (node :: nodes) (node' :: nodes') := by
  obtain ⟨hrelates, hrebound, hruns, hfixed, hmentions, hlocal, hgood, hcount⟩ := h
  obtain ⟨hrelates', hrebound', hruns', hfixed', hmentions', hlocal', hgood', hcount'⟩ := h'
  rw [run_singleton, run_singleton] at hrelates
  simp only [rebound, runsHost, fixedNames, mentions, localNames, expressions, calls,
    List.append_nil, Bool.or_false] at hrebound hruns hfixed hmentions hlocal hgood hcount
  simp only [mentions, calls] at hmentions' hcount'
  refine ⟨hrelates.andThen hrelates', ?_, ?_, fun x => ?_, fun x => ?_, fun x => ?_, fun e => ?_,
    fun a ha => ?_⟩
  · rw [rebound, rebound, hrebound, hrebound']
  · rw [runsHost, runsHost, hruns, hruns']
  · have := hfixed x
    have := hfixed' x
    simp only [fixedNames, List.mem_append]
    tauto
  · have := hmentions x
    have := hmentions' x
    simp only [mentions, expressions, List.flatMap_append, List.mem_append]
    tauto
  · have := hlocal x
    have := hlocal' x
    simp only [localNames, List.mem_append]
    tauto
  · simp only [expressions, List.mem_append]
    rintro (he | he)
    · exact hgood e he
    · exact hgood' e he
  · have := hcount a ha
    have := hcount' a ha
    simp only [calls, expressions, List.flatMap_append, List.count_append]
    omega

/-- The body of an existence test. -/
theorem existence (expression : String) (hnew : ∀ x ∈ mentioned expression, x ∉ new)
    (hgood : good (accessor.pieces expression.toList))
    (h : Deduplicated host good counted new nodes nodes') :
    Deduplicated host good counted new [.existence expression nodes]
      [.existence expression nodes'] := by
  obtain ⟨hrelates, hrebound, hruns, hfixed, hmentions, hlocal, hgood', hcount⟩ := h
  simp only [mentions, calls] at hmentions hcount
  refine ⟨?_, ?_, ?_, fun x => ?_, fun x => ?_, fun x => ?_, fun e => ?_, fun a ha => ?_⟩
  · rw [run_singleton, run_singleton]
    refine relates_choose (fun s s' hs => ?_) hrelates (relates_print fun _ _ _ => rfl)
    rw [hs.eval_eq hnew]
  · simpa only [rebound, Node.rebound, List.append_nil] using hrebound
  · simpa only [runsHost, Node.runsHost, Bool.or_false] using hruns
  · simpa only [fixedNames, Node.fixedNames, List.append_nil] using hfixed x
  · have := hmentions x
    simp only [mentions, expressions, Node.expressions, List.append_nil, List.flatMap_cons,
      List.mem_append]
    tauto
  · simpa only [localNames, Node.localNames, List.append_nil] using hlocal x
  · simp only [expressions, Node.expressions, List.append_nil, List.mem_cons]
    rintro (rfl | he)
    · exact hgood
    · exact hgood' e he
  · have := hcount a ha
    simp only [calls, expressions, Node.expressions, List.append_nil, List.flatMap_cons,
      List.count_append]
    omega

/-- A branch before the other branches of a conditional. -/
theorem branch (condition : Option String) {branches branches' : List Branch}
    (hnew : ∀ e ∈ condition, ∀ x ∈ mentioned e, x ∉ new)
    (hgood : ∀ e ∈ condition, good (accessor.pieces e.toList))
    (h : Deduplicated host good counted new nodes nodes')
    (h' : Deduplicated host good counted new [.conditional branches] [.conditional branches']) :
    Deduplicated host good counted new [.conditional (⟨condition, nodes⟩ :: branches)]
      [.conditional (⟨condition, nodes'⟩ :: branches')] := by
  obtain ⟨hrelates, hrebound, hruns, hfixed, hmentions, hlocal, hgood', hcount⟩ := h
  obtain ⟨hrelates', hrebound', hruns', hfixed', hmentions', hlocal', hgood'', hcount'⟩ := h'
  rw [run_singleton, run_singleton] at hrelates'
  simp only [mentions, calls] at hmentions hcount
  simp only [rebound, runsHost, fixedNames, mentions, localNames, expressions, calls, Node.rebound,
    Node.runsHost, Node.fixedNames, Node.localNames, Node.expressions, List.append_nil,
    Bool.or_false] at hrebound' hruns' hfixed' hmentions' hlocal' hgood'' hcount'
  refine ⟨?_, ?_, ?_, fun x => ?_, fun x => ?_, fun x => ?_, fun e => ?_, fun a ha => ?_⟩
  · rw [run_singleton, run_singleton]
    refine relates_choose (fun s s' hs => ?_) hrelates hrelates'
    cases condition with
    | none => rfl
    | some e => simp only [Option.all_some, hs.eval_eq (hnew e rfl)]
  · simp only [rebound, Node.rebound, branchesRebind, hrebound, hrebound']
  · simp only [runsHost, Node.runsHost, branchesRunHost, hruns, hruns']
  · have := hfixed x
    have := hfixed' x
    simp only [fixedNames, Node.fixedNames, branchesFixedNames, List.append_nil, List.mem_append]
    tauto
  · have := hmentions x
    have := hmentions' x
    simp only [mentions, expressions, Node.expressions, branchesExpressions, List.append_nil,
      List.flatMap_append, List.mem_append]
    tauto
  · have := hlocal x
    have := hlocal' x
    simp only [localNames, Node.localNames, branchesLocalNames, List.append_nil, List.mem_append]
    tauto
  · simp only [expressions, Node.expressions, branchesExpressions, List.append_nil,
      List.mem_append, Option.mem_toList]
    rintro ((he | he) | he)
    · exact hgood e he
    · exact hgood' e he
    · exact hgood'' e he
  · have := hcount a ha
    have := hcount' a ha
    simp only [calls, expressions, Node.expressions, branchesExpressions, List.append_nil,
      List.flatMap_append, List.count_append]
    omega

/-- Loops over the same collection, whose runs for an element print the same. -/
theorem relates_loop {head : LoopHead} {bindings bindings' : List Binding}
    (hnew : ∀ x ∈ mentioned head.collection, x ∉ new)
    (honce : ∀ element, Relates (Shared host new [] []) (Shared host new [] [])
      ((Run.change fun s => host.bindAll bindings (host.assign head element s)).andThen
        (run host nodes))
      ((Run.change fun s => host.bindAll bindings' (host.assign head element s)).andThen
        (run host nodes'))) :
    Relates (Shared host new [] []) (Shared host new [] [])
      (run host [.loop head bindings nodes]) (run host [.loop head bindings' nodes']) := by
  rw [run_singleton, run_singleton]
  intro s s' hs
  simp only [Node.run, ← hs.eval_eq hnew]
  exact relates_forEach honce _ s s' hs

/-- The variables of a loop get the same values in both stores. -/
theorem shared_assign {head : LoopHead} (hnames : ∀ x ∈ head.names, x ∉ new)
    (element : host.Value × host.Value) {s s' : Store host.Value}
    (hs : Shared host new [] [] s s') :
    Shared host new [] [] (host.assign head element s) (host.assign head element s') := by
  have happart : Apart new [] := ⟨by simp, by simp⟩
  have hall : Shared host new [] head.names s s' := hs.mono (List.nil_subset _)
  have := hall.assign happart hnames (List.Subset.refl _) element
  exact ⟨this.agree, fun k hk => absurd hk List.not_mem_nil⟩

/-- The body of a loop without local variables. -/
theorem loop (head : LoopHead) (hnames : ∀ x ∈ head.names, x ∉ new)
    (hnew : ∀ x ∈ mentioned head.collection, x ∉ new)
    (hgood : good (accessor.pieces head.collection.toList))
    (h : Deduplicated host good counted new nodes nodes') :
    Deduplicated host good counted new [.loop head [] nodes] [.loop head [] nodes'] := by
  obtain ⟨hrelates, hrebound, hruns, hfixed, hmentions, hlocal, hgood', hcount⟩ := h
  simp only [mentions, calls] at hmentions hcount
  refine ⟨?_, ?_, ?_, fun x => ?_, fun x => ?_, fun x => ?_, fun e => ?_, fun a ha => ?_⟩
  · exact relates_loop hnew fun element =>
      (relates_change fun s s' hs => shared_assign hnames element hs).andThen hrelates
  · simp only [rebound, Node.rebound, hrebound]
  · simpa only [runsHost, Node.runsHost, Bool.or_false] using hruns
  · have := hfixed x
    simp only [fixedNames, Node.fixedNames, List.map_nil, List.append_nil, List.mem_append]
    tauto
  · have := hmentions x
    simp only [mentions, expressions, Node.expressions, List.map_nil, List.append_nil,
      List.flatMap_cons, List.flatMap_append, List.mem_append]
    tauto
  · simpa only [localNames, Node.localNames, List.map_nil, List.nil_append, List.append_nil]
      using hlocal x
  · simp only [expressions, Node.expressions, List.map_nil, List.append_nil, List.cons_append,
      List.nil_append, List.mem_cons]
    rintro (rfl | he)
    · exact hgood
    · exact hgood' e he
  · have := hcount a ha
    simp only [calls, expressions, Node.expressions, List.map_nil, List.append_nil,
      List.cons_append, List.nil_append, List.flatMap_cons, List.count_append]
    omega

/-! ## The round of a loop -/

/-- A call holds no call but itself. -/
theorem all_call {a : DottedPath} (h : a.Readable) :
    accessor.all (String.ofList a.call) = [a] := by
  rw [Phrase.all, String.toList_ofList, pieces_call h]
  rfl

/-- A call alone is what is asked of expressions. -/
theorem good_call (hkept : KeptByRounds good moved counted) {a : DottedPath} (h : a.Readable) :
    good (accessor.pieces (String.ofList a.call).toList) := by
  rw [String.toList_ofList, pieces_call h]
  exact hkept.call h

/-- **The round of a loop**: the calls that are repeated on the loop's own variables are bound
before its body. -/
theorem round {head : LoopHead} {hoists : List Hoist}
    (hkept : KeptByRounds good moved counted) (hround : SoundRound (ownCalls head) hoists nodes)
    (hnames : ∀ x ∈ head.names, x ∉ hoists.map Hoist.name)
    (hcollection : ∀ x ∈ mentioned head.collection, x ∉ hoists.map Hoist.name)
    (hcalls : ∀ h ∈ hoists, String.ofList h.call.name ∈ mentions nodes)
    (hgood : ∀ e ∈ expressions [.loop head [] nodes], good (accessor.pieces e.toList))
    (hgood' : ∀ e ∈ expressions (mapSites (rewritten (ownCalls head) hoists) [] nodes),
      good (accessor.pieces e.toList))
    (hcount : ∀ a, counted a →
    (calls (mapSites (rewritten (ownCalls head) hoists) [] nodes)).count a +
      (hoists.map Hoist.call).count a ≤ (calls nodes).count a)
    (hlaw : host.Lawful) :
    Deduplicated host good counted (hoists.map Hoist.name) [.loop head [] nodes]
      [.loop head (hoists.map Hoist.binding)
        (mapSites (rewritten (ownCalls head) hoists) [] nodes)] := by
  obtain ⟨hrebound, hruns, hfixed, hlocal⟩ :=
    mapSites_shape (f := rewritten (ownCalls head) hoists) [] nodes
  have hbindings : (hoists.map Hoist.binding).map (·.name) = hoists.map Hoist.name := by
    rw [List.map_map]
    rfl
  have hvalues : ((hoists.map Hoist.binding).map (·.value)).flatMap accessor.all =
      hoists.map Hoist.call := by
    rw [List.map_map, List.flatMap_map, List.map_eq_flatMap]
    exact List.flatMap_congr fun k hk => all_call (hround.readable k hk)
  have hmentions : ((hoists.map Hoist.binding).map (·.value)).flatMap mentioned =
      hoists.map fun k => String.ofList k.call.name := by
    rw [List.map_map, List.flatMap_map, List.map_eq_flatMap]
    exact List.flatMap_congr fun k hk => mentioned_call (hround.readable k hk)
  simp only [expressions, Node.expressions, List.map_nil, List.append_nil, List.cons_append,
    List.nil_append, List.mem_cons] at hgood
  refine ⟨?_, ?_, ?_, fun x => ?_, fun x => ?_, fun x => ?_, fun e => ?_, fun a ha => ?_⟩
  · refine relates_loop hcollection fun element s s' hs => ?_
    exact hround.run_eq hlaw (shared_assign hnames element hs)
  · simp only [rebound, Node.rebound, hrebound]
  · simp only [runsHost, Node.runsHost, hruns]
  · simp only [fixedNames, Node.fixedNames, hbindings, hfixed, List.map_nil, List.append_nil,
      List.mem_append]
    tauto
  · simp only [mentions, expressions, Node.expressions, List.map_nil, List.append_nil,
      List.cons_append, List.nil_append, List.flatMap_cons, List.flatMap_append, List.mem_append,
      hmentions]
    rintro (hx | hx | hx)
    · exact .inl (.inl hx)
    · obtain ⟨k, hk, rfl⟩ := List.mem_map.mp hx
      exact .inl (.inr (hcalls k hk))
    · rw [expressions_mapSites, List.flatMap_map, List.mem_flatMap] at hx
      obtain ⟨site, hsite, hx⟩ := hx
      rcases mentioned_rewritten hround.named (hround.standAlone site hsite) hx with hx | hx
      · refine .inl (.inr (List.mem_flatMap.mpr ⟨site.expression, ?_, hx⟩))
        rw [← map_sites []]
        exact List.mem_map_of_mem hsite
      · exact .inr hx
  · simp only [localNames, Node.localNames, hbindings, hlocal, List.map_nil, List.nil_append,
      List.append_nil, List.mem_append]
    tauto
  · simp only [expressions, Node.expressions, List.append_nil, List.cons_append, List.mem_cons,
      List.mem_append]
    rintro (rfl | he | he)
    · exact hgood _ (.inl rfl)
    · rw [List.map_map] at he
      obtain ⟨k, hk, rfl⟩ := List.mem_map.mp he
      exact good_call hkept (hround.readable k hk)
    · exact hgood' e he
  · have := hcount a ha
    simp only [calls] at this
    simp only [calls, expressions, Node.expressions, List.map_nil, List.append_nil,
      List.cons_append, List.nil_append, List.flatMap_cons, List.flatMap_append, List.count_append,
      hvalues]
    omega

end Deduplicated

/-! ## Calls that are repeated -/

/-- A call of a tree stands in one of its expressions. -/
theorem exists_of_mem_calls {nodes : List Node} {a : DottedPath} (h : a ∈ calls nodes) :
    ∃ e ∈ expressions nodes, ∃ before after,
      accessor.pieces e.toList = before ++ .phrase a :: after := by
  obtain ⟨e, he, ha⟩ := List.mem_flatMap.mp h
  obtain ⟨p, hp, hpa⟩ := List.mem_filterMap.mp ha
  obtain ⟨before, after, heq⟩ := List.append_of_mem hp
  cases p with
  | phrase b =>
    obtain rfl := Option.some.inj hpa
    exact ⟨e, he, before, after, heq⟩
  | literal | char => simp [Piece.phrase?] at hpa

/-- The calls of a tree are readable. -/
theorem readable_of_mem_calls {nodes : List Node} {a : DottedPath} (h : a ∈ calls nodes) :
    a.Readable := by
  obtain ⟨e, -, before, after, heq⟩ := exists_of_mem_calls h
  exact (isCut_pieces e.toList).readable_of_mem (heq ▸ List.mem_append_right _ List.mem_cons_self)

/-- The variable of a call is mentioned. -/
theorem mem_mentions_of_mem_calls {nodes : List Node} {a : DottedPath} (h : a ∈ calls nodes) :
    String.ofList a.name ∈ mentions nodes := by
  obtain ⟨e, he, ha⟩ := List.mem_flatMap.mp h
  exact List.mem_flatMap.mpr ⟨e, he, mem_mentioned_of_mem_all ha⟩

/-- A call that is repeated among those wanted occurs more than once, and is wanted somewhere. -/
theorem of_mem_repeated {wanted : Wanted} {nodes : List Node} {a : DottedPath}
    (h : a ∈ repeated (wantedCalls wanted nodes)) :
    1 < (calls nodes).count a ∧ ∃ shadowed, wanted (String.ofList a.name) shadowed = true := by
  obtain ⟨hmem, hcount⟩ := List.mem_filter.mp h
  have hcount := of_decide_eq_true hcount
  obtain ⟨site, -, ha⟩ := List.mem_flatMap.mp (List.mem_eraseDups.mp hmem)
  refine ⟨Nat.lt_of_lt_of_le hcount (List.Sublist.count_le a ?_), site.shadowed,
    (List.mem_filter.mp ha).2⟩
  rw [wantedCalls, calls, ← map_sites [], List.flatMap_map]
  induction sites [] nodes with
  | nil => exact List.Sublist.slnil
  | cons site sites ih => exact List.filter_sublist.append ih

/-! ### The hoists of a round -/

section RoundHoists

variable {wanted : Wanted} {nodes : List Node} {taken : Names}

/-- A round hoists repeated calls only. -/
theorem call_mem_repeated {k : Hoist} (hk : k ∈ roundHoists wanted nodes taken) :
    k.call ∈ repeated (wantedCalls wanted nodes) := by
  rw [← (named_nameCalls taken (repeated (wantedCalls wanted nodes))).map_call]
  exact List.mem_map_of_mem hk

/-- The calls that a round hoists are readable. -/
theorem readable_of_mem_roundHoists {k : Hoist} (hk : k ∈ roundHoists wanted nodes taken) :
    k.call.Readable :=
  readable_of_mem_calls
    (List.count_pos_iff.mp (Nat.lt_of_succ_lt (of_mem_repeated (call_mem_repeated hk)).1))

/-- The calls that are replaced in a round are repeated, so they stand by themselves if the calls
that are repeated do. -/
theorem standAlone_roundHoists
    (hmoved : ∀ a ∈ repeated (wantedCalls wanted nodes), moved a)
    (halone : ∀ e ∈ expressions nodes, ∀ before a after,
      accessor.pieces e.toList = before ++ .phrase a :: after → moved a →
      StandsAlone before (spelled after))
    {site : Site} (hsite : site ∈ sites [] nodes) :
    StandAlone wanted (roundHoists wanted nodes taken) site := by
  rintro before a after heq ⟨x, hx⟩
  obtain ⟨-, k, hk, rfl, -⟩ := exists_of_heldBy hx
  refine halone site.expression ?_ before k.call after heq (hmoved _ (call_mem_repeated hk))
  rw [← map_sites []]
  exact List.mem_map_of_mem hsite

/-- **A round keeps what is asked of expressions**, and of the calls that are counted exactly those
are left that are not replaced. -/
theorem KeptByRounds.roundHoists (hkept : KeptByRounds good moved counted)
    (hmoved : ∀ a ∈ repeated (wantedCalls wanted nodes), moved a)
    (hgood : ∀ e ∈ expressions nodes, good (accessor.pieces e.toList))
    {site : Site} (hsite : site ∈ sites [] nodes) :
    good (accessor.pieces (rewritten wanted (roundHoists wanted nodes taken) site).toList) ∧
      ∀ a, counted a →
        (accessor.all (rewritten wanted (roundHoists wanted nodes taken) site)).count a =
          ((accessor.all site.expression).filter fun b =>
            (heldBy wanted (roundHoists wanted nodes taken) site.shadowed b).isNone).count a := by
  have hnamed := named_nameCalls taken (repeated (wantedCalls wanted nodes))
  refine hkept.round hnamed.candidate (hgood _ ?_) fun a x hx => ?_
  · rw [← map_sites []]
    exact List.mem_map_of_mem hsite
  · obtain ⟨-, k, hk, rfl, -⟩ := exists_of_heldBy hx
    exact hmoved _ (call_mem_repeated hk)

end RoundHoists

/-- The round of a tree whose own variables are not internal is sound. -/
theorem soundRound {wanted : Wanted} {nodes : List Node} {taken : Names}
    (hvariables : ∀ x ∈ treeVariables nodes, isInternal x = true → x ∈ taken)
    (hlocal : ∀ x ∈ localNames nodes, isInternal x = true) (hhost : runsHost nodes = false)
    (hwanted : ∀ name shadowed, wanted name shadowed = true → name ∉ shadowed)
    (hcalls : ∀ a ∈ repeated (wantedCalls wanted nodes), isInternal (String.ofList a.name) = false)
    (halone : ∀ site ∈ sites [] nodes, StandAlone wanted (roundHoists wanted nodes taken) site) :
    SoundRound wanted (roundHoists wanted nodes taken) nodes := by
  have hnamed := named_nameCalls taken (repeated (wantedCalls wanted nodes))
  refine ⟨hnamed.candidate, hnamed.nodup, fun x hx hmem => ?_, fun _ =>
    readable_of_mem_roundHoists,
    fun k hk => hcalls _ (call_mem_repeated hk), hlocal, hhost, hwanted, halone⟩
  have htaken := hvariables x hx (NamedByCall.isInternal hnamed.candidate hmem)
  obtain ⟨k, hk, rfl⟩ := List.mem_map.mp hmem
  exact hnamed.notMem k hk htaken

end Rounds

end ViewCompiler.Template
