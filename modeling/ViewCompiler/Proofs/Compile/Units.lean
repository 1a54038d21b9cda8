import ViewCompiler.Proofs.Compile.Flat
import ViewCompiler.Proofs.Compile.Totality
import ViewCompiler.Proofs.Php.Mapping

/-!
# The forms of a unit's body

Whatever form is picked for the body of a unit, it prints what buffering prints (`yield_unitBody`).
For one expression and for one concatenation this is what flat trees do in both forms. For a loop
that is mapped, the markup before and after the loop prints the texts around it, and the mapping
function captures what the body of the loop reads.
-/

namespace ViewCompiler.Compile

open Template Php
open Expression (mentioned)

variable {machine : Machine} {slot : SlotCompiler} {path : String}

/-! ## Markup around a node -/

/-- The markup of two lists of nodes is made one after the other. -/
theorem markup_append (nodes others : List Node) :
    markup slot path (nodes ++ others) = do
      let parts ← markup slot path nodes
      return parts ++ (← markup slot path others) := by
  induction nodes with
  | nil => simp [markup]
  | cons node nodes ih => simp [markup, ih]

/-- The values of texts are literals, and no name is taken for them. -/
theorem mapM_text (texts : List String) :
    (texts.map Node.text).mapM (interpolation slot path) = pure (texts.map Expr.literal) := by
  induction texts with
  | nil => rfl
  | cons text texts ih =>
    rw [List.map_cons, List.mapM_cons, ih, interpolation]
    simp

/-- Literals print their texts. -/
theorem actsOfAll_literals (s : Store machine.Value) (texts : List String) :
    actsOfAll machine s (texts.map .literal) = texts.flatMap (literalActs machine) := by
  induction texts with
  | nil => rw [List.map_nil, actsOfAll, List.flatMap_nil]
  | cons text texts ih => rw [List.map_cons, actsOfAll, ih, Expr.acts, List.flatMap_cons]

/-- Markup that is buffered is printed as it stands after the line of its first tag. -/
theorem acts_buffered (s : Store machine.Value) (parts : List Markup) :
    (UnitBody.buffered parts).acts machine s =
      (execMarkup machine (printedText false) "" parts s).1 := by
  have hprinted : (dropLineEnd ∘ ("\n" ++ ·)) = printedText false := funext dropLineEnd_newline
  rw [UnitBody.acts, hprinted]

/-- All that literals do is printing. -/
theorem filter_literals (texts : List String) :
    (texts.flatMap (literalActs machine)).filter (Act.prints machine) =
      texts.flatMap (literalActs machine) := by
  refine List.filter_eq_self.mpr fun act hact => ?_
  obtain ⟨text, -, hact⟩ := List.mem_flatMap.mp hact
  unfold literalActs at hact
  split at hact
  · cases hact
  · rw [List.mem_singleton.mp hact]
    rfl

/-- The bodies print the same, piece by piece. -/
def PrintsLike (machine : Machine) (s : Store machine.Value) (body other : UnitBody) : Prop :=
  (body.acts machine s).filter (Act.prints machine) =
    (other.acts machine s).filter (Act.prints machine)

/-! ## Loops that are mapped -/

/-- The mapping of a loop, with the value for an element. -/
def mapping (candidate : MapCandidate) (value : Expr) : LoopMap where
  before := candidate.before
  head := candidate.head
  uses := captured candidate.body (candidate.head.names ++ candidate.bindings.map (·.name))
  locals := candidate.bindings
  value := value
  after := candidate.after

section Mapping

variable {nodes first inner last : List Node} {candidate : MapCandidate}

/-- The mapping function sees what the body of the loop reads. -/
theorem sees_mapping (hitems : itemsVariable ∉ reads [] nodes)
    (hloop : .loop candidate.head candidate.bindings inner ∈ nodes)
    (hbody : candidate.body = visible true inner) (value : Expr) :
    (mapping candidate value).Sees (reads [] inner) := by
  refine ⟨fun x hx hassigned hfixed => ?_, fun hx => Decidable.byContradiction fun hassigned => ?_⟩
  · rw [mapping, hbody, mem_captured, reads_visible]
    exact ⟨mem_reads.mpr ⟨hx, hassigned⟩, hfixed⟩
  · have hbound : itemsVariable ∉
        candidate.bindings.map (·.name) ++ (candidate.head.names ++ []) := by
      rw [List.append_nil]
      exact fun h => hassigned (List.mem_append.mpr (List.mem_append.mp h).symm)
    have hread := mem_reads.mpr ⟨hx, hbound⟩
    exact hitems (reads_subset [] hloop (List.mem_append_right _ hread))

/-- The texts around the loop have values too, which take no names. -/
theorem loopMap_eq
    (hfirst : content (visible false first) = candidate.before.toList.map Node.text)
    (hlast : content (visible true last) = candidate.after.toList.map Node.text) :
    loopMap slot path candidate = (do
      let _ ← (content (visible false first)).mapM (interpolation slot path)
      let value ← expression slot path candidate.body
      let _ ← (content (visible true last)).mapM (interpolation slot path)
      return mapping candidate value) := by
  rw [hfirst, hlast, mapM_text, mapM_text]
  simp [loopMap, mapping]

/-- The markup of a loop stands between that of the nodes around it. -/
theorem markup_loop (head : LoopHead) (bindings : List Binding) :
    markup slot path (first ++ .loop head bindings inner :: last) = (do
      let before ← markup slot path first
      let body ← markup slot path inner
      let after ← markup slot path last
      return before ++ .loop head bindings body :: after) := by
  simp [markup_append, markup, markupOf]

/-- The values of the texts around the loop. -/
theorem gives_texts {texts : List String} (h : content nodes = texts.map Node.text) :
    Gives ((content nodes).mapM (interpolation slot path)) fun values =>
      values = texts.map .literal := by
  rw [h, mapM_text]
  exact gives_pure rfl

/-- A mapping prints what markup prints that does the same before the loop, for an element, and
after the loop. -/
theorem filter_acts_mapping (hlaw : machine.Lawful)
    (hloop : IsMappable candidate.head candidate.bindings) {value : Expr} {names : List String}
    (hsees : (mapping candidate value).Sees names) (hreads : value.Reads machine names)
    {before body after : List Markup}
    (hbefore : execMarkup machine (printedText false) "" before =
      Exec.acting fun s => actsOfAll machine s (candidate.before.toList.map .literal))
    (hbody : execMarkup machine (printedText true) "" body =
      Exec.acting fun s => value.acts machine s)
    (hafter : execMarkup machine (printedText true) "" after =
      Exec.acting fun s => actsOfAll machine s (candidate.after.toList.map .literal))
    {s : Store machine.Value}
    (hs : IsLoopable machine (machine.eval candidate.head.collection s)) :
    PrintsLike machine s (.mapping (mapping candidate value))
      (.buffered (before ++ .loop candidate.head candidate.bindings body :: after)) := by
  have hmapped := filter_execLoop (mapping candidate value) hlaw hloop hsees hreads hs
  have hexec : (Markup.loop candidate.head candidate.bindings body).exec machine =
      execLoop machine candidate.head candidate.bindings
        (Exec.acting fun s => value.acts machine s) := by
    rw [Markup.exec, ← hbody]
    rfl
  rw [PrintsLike, acts_buffered, execMarkup_append rfl, hbefore, hafter, hexec]
  simp only [mapping] at hmapped
  simp only [UnitBody.acts, Exec.andThen, Exec.acting, List.filter_append, hmapped, LoopMap.acts,
    mapping, Function.update_self, filter_literals, actsOfAll_literals, List.append_assoc]

/-- A loop that is mapped prints what the markup of the tree prints. -/
theorem paired_loopMap (hlaw : machine.Lawful) (hslot : ReadsContent machine slot)
    (htidy : Tidy (Obeys machine) nodes) (hkeeps : KeepsMentions (spellings nodes))
    (hitems : itemsVariable ∉ reads [] nodes)
    (hloops : ∀ head locals body, .loop head locals body ∈ nodes → IsMappable head locals)
    (h : mapCandidate? (visible false nodes) = some candidate) :
    Paired (fun map parts => ∀ s, IsLoopable machine (machine.eval candidate.head.collection s) →
        PrintsLike machine s (.mapping map) (.buffered parts))
      (loopMap slot path candidate) (markup slot path nodes) := by
  obtain ⟨hcontent, hflat⟩ := content_of_mapCandidate? h
  obtain ⟨first, inner, last, rfl, hbody, hfirst, hlast⟩ :=
    exists_loop_of_content (by simp [Node.isText]) hcontent
  have hmem : .loop candidate.head candidate.bindings inner ∈
      first ++ .loop candidate.head candidate.bindings inner :: last :=
    List.mem_append_right _ List.mem_cons_self
  obtain ⟨htidyFirst, htidyInner, -, htidyLast⟩ := htidy.of_append
  have hkeepsInner : KeepsMentions (spellings inner) := hkeeps.mono (spellings_subset hmem)
  have htexts : ∀ texts : List String, ∀ node ∈ texts.map Node.text, hasValue node = true := by
    simp [hasValue, Node.isText]
  -- with the texts around the loop compiled as well, both forms have three parts that take the
  -- same names
  rw [loopMap_eq hfirst hlast, markup_loop, hbody]
  refine ((paired_flat htidyFirst (hfirst ▸ htexts _)).gives (gives_texts hfirst)).bind
    fun _ before hbefore => ?_
  refine ((paired_expression htidyInner (hasValue_of_isFlat (hbody ▸ hflat))).gives
    (gives_expression hslot hkeepsInner true)).bind fun value body hvalue => ?_
  refine ((paired_flat htidyLast (hlast ▸ htexts _)).gives (gives_texts hlast)).bind
    fun _ after hafter => paired_pure fun s hs => ?_
  obtain ⟨rfl, hbefore⟩ := hbefore
  obtain ⟨rfl, hafter⟩ := hafter
  exact filter_acts_mapping hlaw (hloops _ _ _ hmem) (sees_mapping hitems hmem hbody _) hvalue.1
    hbefore hvalue.2 hafter hs

end Mapping

/-! ## Units -/

/-- What does not print prints nothing. -/
theorem output_filter (acts : List (Act machine.Value)) :
    output machine (acts.filter (Act.prints machine)) = output machine acts := by
  induction acts with
  | nil => rfl
  | cons act acts ih =>
    have hcons : ∀ acts, output machine (act :: acts) = act.text machine ++ output machine acts :=
      fun acts => by rw [output, List.map_cons, String.join_cons]; rfl
    rw [List.filter_cons]
    split
    · rw [hcons, hcons, ih]
    · rename_i hquiet
      have htext : act.text machine = "" := by
        cases act <;> first | rfl | exact absurd rfl hquiet
      rw [hcons, htext, ih, String.empty_append]

/-- Bodies that print alike yield the same. -/
theorem PrintsLike.yield_eq {s : Store machine.Value} {body other : UnitBody}
    (h : PrintsLike machine s body other) : body.yield machine s = other.yield machine s := by
  rw [UnitBody.yield, UnitBody.yield, ← output_filter, h, output_filter]

/-- The loops of the nodes can run. -/
def CanLoop (machine : Machine) (s : Store machine.Value) (nodes : List Node) : Prop :=
  ∀ head locals body, .loop head locals body ∈ nodes →
    IsLoopable machine (machine.eval head.collection s)

/-- The form that is picked and the buffered form print the same. -/
theorem paired_unitBody (hlaw : machine.Lawful) {nodes : List Node} {free : List String}
    {bindings : List Binding} (hform : strategy nodes free bindings ≠ .buffered)
    (htidy : Tidy (Obeys machine) nodes) (hkeeps : KeepsMentions (spellings nodes))
    (hitems : itemsVariable ∉ reads [] nodes)
    (hloops : ∀ head locals body, .loop head locals body ∈ nodes → IsMappable head locals) :
    Paired (fun body buffered => ∀ s, CanLoop machine s nodes → PrintsLike machine s body buffered)
      (unitBody path (strategy nodes free bindings) nodes) (unitBody path .buffered nodes) := by
  have hvalue : (∀ node ∈ content (visible false nodes), hasValue node = true) →
      Paired (fun body buffered => ∀ s, CanLoop machine s nodes →
          PrintsLike machine s body buffered)
        (do return UnitBody.value (← expression (slotsOf path nodes) path (visible false nodes)))
        (do return UnitBody.buffered (← markup (slotsOf path nodes) path nodes)) := by
    intro hvalues
    refine (paired_expression htidy hvalues).bind
      fun value parts hparts => paired_pure fun s _ => ?_
    rw [PrintsLike, acts_buffered, hparts, UnitBody.acts]
    rfl
  cases hstrategy : strategy nodes free bindings with
  | direct => exact hvalue (hasValue_of_strategy (.inl hstrategy))
  | concatenation => exact hvalue (hasValue_of_strategy (.inr hstrategy))
  | buffered => exact absurd hstrategy hform
  | mapping =>
    obtain ⟨candidate, hcandidate⟩ := exists_mapCandidate?_of_strategy hstrategy
    obtain ⟨hcontent, -⟩ := content_of_mapCandidate? hcandidate
    obtain ⟨first, inner, last, hnodes, -, -, -⟩ :=
      exists_loop_of_content (by simp [Node.isText]) hcontent
    have hmem : .loop candidate.head candidate.bindings inner ∈ nodes := by
      rw [hnodes]
      exact List.mem_append_right _ List.mem_cons_self
    simp only [unitBody, hcandidate]
    refine (paired_loopMap hlaw (readsContent_slotCode machine path _) htidy hkeeps hitems hloops
      hcandidate).bind fun map parts hparts => paired_pure fun s hs => ?_
    exact hparts s (hs _ _ _ hmem)

/-- **Every form of a unit's body prints what buffering prints**, for every store in which the
loops can run, and it takes the same names. The pieces that are printed are the same too; each
escaped echo is one of them, in both forms through the escaping function. -/
theorem yield_unitBody (hlaw : machine.Lawful) {nodes : List Node} {free : List String}
    {bindings : List Binding} (hform : strategy nodes free bindings ≠ .buffered)
    (htidy : Tidy (Obeys machine) nodes) (hkeeps : KeepsMentions (spellings nodes))
    (hitems : itemsVariable ∉ reads [] nodes)
    (hloops : ∀ head locals body, .loop head locals body ∈ nodes → IsMappable head locals)
    (path : String) (taken : Names) :
    (∃ body buffered taken',
      (unitBody path (strategy nodes free bindings) nodes).run taken = .ok (body, taken') ∧
      (unitBody path .buffered nodes).run taken = .ok (buffered, taken') ∧
      ∀ s, CanLoop machine s nodes → body.yield machine s = buffered.yield machine s ∧
        PrintsLike machine s body buffered) ∧
      ∀ (slot : SlotCompiler) (expression : String), Node.isSlotEcho expression = false →
        interpolation slot path (.echo expression true) = pure (.escaped expression) ∧
        markupOf slot path (.echo expression true) = pure (.echo (.escaped expression)) ∧
        ∀ layout, (Expr.escaped expression).print layout =
          "htmlspecialchars(" ++ asString expression ++ ", ENT_QUOTES, 'UTF-8')" := by
  constructor
  · obtain ⟨body, taken', hbody⟩ := succeeds_unitBody path nodes free bindings taken
    obtain ⟨buffered, hbuffered, hprints⟩ :=
      paired_unitBody hlaw hform htidy hkeeps hitems hloops _ _ _ hbody
    exact ⟨body, buffered, taken', hbody, hbuffered, fun s hs =>
      ⟨(hprints s hs).yield_eq, hprints s hs⟩⟩
  · intro slot expression hslot
    refine ⟨?_, ?_, fun layout => ?_⟩
    · rw [interpolation, echoExpression, hslot]
      rfl
    · rw [markupOf, echoMarkup, hslot]
      rfl
    · unfold Expr.print escapeCall
      exact Eq.refl _

/-- A loop over a list, with text around it and in its body. -/
def listed : List Node :=
  [.text "<ul>\n", .loop ⟨"$a", "u", none⟩ []
    [.text "\n<li>", .echo "$u" true, .text "</li>"], .text "\n</ul>"]

/-- The loop is mapped and prints the same. -/
theorem yield_unitBody_listed :
    strategy listed ["a"] [] = .mapping ∧ ∃ body buffered taken',
      (unitBody "" .mapping listed).run [] = .ok (body, taken') ∧
      (unitBody "" .buffered listed).run [] = .ok (buffered, taken') ∧
      body.yield (.ofLists "") (fun _ => ["x", "y"]) =
        buffered.yield (.ofLists "") fun _ => ["x", "y"] := by
  have hstrategy : strategy listed ["a"] [] = .mapping := by decide
  have hloop : ∀ head locals body, .loop head locals body ∈ listed →
      head = ⟨"$a", "u", none⟩ ∧ locals = [] := by
    intro head locals body h
    simp only [listed, List.mem_cons, List.not_mem_nil, or_false, reduceCtorEq, false_or,
      Node.loop.injEq] at h
    exact ⟨h.1, h.2.1⟩
  have hnone : spellings listed = [] := by decide +kernel
  have htidy : Tidy (Obeys (.ofLists "")) listed := by
    simp [listed, Tidy, Node.Tidy, startsWithText, Node.isText]
  have hmappable : ∀ head locals body, .loop head locals body ∈ listed →
      IsMappable head locals := by
    intro head locals body h
    obtain ⟨rfl, rfl⟩ := hloop head locals body h
    exact ⟨fun key hkey => absurd hkey (Option.not_mem_none key),
      fun b hb => absurd hb List.not_mem_nil⟩
  obtain ⟨⟨body, buffered, taken', hbody, hbuffered, hyield⟩, -⟩ :=
    @yield_unitBody (.ofLists "") (Machine.lawful_ofLists "") listed ["a"] []
      (by rw [hstrategy]; decide) htidy (fun p hp => absurd (hnone ▸ hp) List.not_mem_nil)
      (by decide +kernel) hmappable "" []
  rw [hstrategy] at hbody
  refine ⟨hstrategy, body, buffered, taken', hbody, hbuffered, (hyield _ ?_).1⟩
  intro head locals inner h
  obtain ⟨rfl, -⟩ := hloop head locals inner h
  have hmentioned : mentioned "$a" = ["a"] := by decide +kernel
  have heval : (Machine.ofLists "").eval "$a" (fun _ => ["x", "y"]) = ["x", "y"] := by
    show (Machine.ofLists "").value "$a" (Host.lookup _ _ (mentioned "$a")) = _
    rw [hmentioned]
    rfl
  refine .inr ⟨rfl, ?_⟩
  rw [heval]
  show [["x"], ["y"]].Nodup
  decide

/-- A loop over a variable, in whose body the variable is passed on with a no-break space behind
it. -/
def passedOn : List Node :=
  [.loop ⟨"$a", "u", none⟩ [⟨"__u_n", "data_get($u, 'n')"⟩]
    [.component "c" [⟨true, "p", some "$a\u00a0"⟩] [] []]]

/-- The variable is set, and no other is. -/
def onlyA : Store (Machine.ofLists "").Value :=
  fun x => if x = "a" then ["1"] else ([] : List String)

/-- **A trimmed expression may read what the mapping function does not capture**: a name may end in
a no-break space, which is trimmed where the attribute is written but not where its variables are
looked for. Nothing else that the theorem asks for is missing. -/
theorem exists_yield_unitBody_ne :
    (Machine.ofLists "").Lawful ∧ strategy passedOn ["a", "a\u00a0"] [] = .mapping ∧
      Tidy (Obeys (.ofLists "")) passedOn ∧ itemsVariable ∉ reads [] passedOn ∧
      (∀ head locals body, .loop head locals body ∈ passedOn → IsMappable head locals) ∧
      CanLoop (.ofLists "") onlyA passedOn ∧
      ∃ body buffered taken',
        (unitBody "" .mapping passedOn).run [] = .ok (body, taken') ∧
        (unitBody "" .buffered passedOn).run [] = .ok (buffered, taken') ∧
        body.yield (.ofLists "") onlyA ≠ buffered.yield (.ofLists "") onlyA := by
  have hloop : ∀ head locals body, .loop head locals body ∈ passedOn →
      head = ⟨"$a", "u", none⟩ ∧ locals = [⟨"__u_n", "data_get($u, 'n')"⟩] := by
    intro head locals body h
    simp only [passedOn, List.mem_cons, List.not_mem_nil, or_false, Node.loop.injEq] at h
    exact ⟨h.1, h.2.1⟩
  have hnoText : false = true → startsWithText [] = false := fun _ => rfl
  refine ⟨Machine.lawful_ofLists "", by decide, ⟨⟨trivial, hnoText, trivial⟩, hnoText, trivial⟩,
    by decide +kernel, ?_, ?_, ?_⟩
  · intro head locals body h
    obtain ⟨rfl, rfl⟩ := hloop head locals body h
    have hmentioned : mentioned "data_get($u, 'n')" = ["u"] := by decide +kernel
    refine ⟨fun key hkey => absurd hkey (Option.not_mem_none key), fun b hb => ?_⟩
    rw [List.mem_singleton.mp hb, hmentioned]
    exact List.Subset.refl _
  · intro head locals body h
    obtain ⟨rfl, -⟩ := hloop head locals body h
    have hmentioned : mentioned "$a" = ["a"] := by decide +kernel
    have heval : (Machine.ofLists "").eval "$a" onlyA = ["1"] := by
      show (Machine.ofLists "").value "$a" (Host.lookup _ _ (mentioned "$a")) = _
      rw [hmentioned]
      rfl
    refine .inr ⟨rfl, ?_⟩
    rw [heval]
    exact List.nodup_singleton _
  · obtain ⟨body, buffered, taken', hbody, hbuffered, hne⟩ := exists_of_bothGive
      (show bothGive (unitBody "" .mapping passedOn) (unitBody "" .buffered passedOn) []
        (fun body buffered =>
          body.yield (.ofLists "") onlyA != buffered.yield (.ofLists "") onlyA) = true
        by decide +kernel)
    exact ⟨body, buffered, taken', hbody, hbuffered, bne_iff_ne.mp hne⟩

end ViewCompiler.Compile
