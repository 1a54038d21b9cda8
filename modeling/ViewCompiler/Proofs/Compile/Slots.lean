import ViewCompiler.Proofs.Compile.Flat
import ViewCompiler.Proofs.Compile.Totality
import ViewCompiler.Proofs.Php.Appending

/-!
# The forms of a slot's value

Whatever form is picked for the content of a slot, the value yields what the closure that buffers
its output would yield (`yield_slotCode`). For statements this is shown node by node: the
statements of a tree as it is printed do the same as the markup of the tree, and append what it
prints (`paired_statements`).
-/

namespace ViewCompiler.Compile

open Template Php
open Expression (mentioned)

variable {machine : Machine} {slot : SlotCompiler} {path : String}

/-! ## The output variable in a tree -/

/-- The output variable is not among the names, and the expressions do not mention it. -/
def AvoidsOutput (names expressions : List String) : Prop :=
  outputVariable ∉ names ∧ ∀ e ∈ expressions, outputVariable ∉ mentioned e

/-- Two parts avoid the output variable if they do so together. -/
theorem AvoidsOutput.append {names names' expressions expressions' : List String}
    (h : AvoidsOutput (names ++ names') (expressions ++ expressions')) :
    AvoidsOutput names expressions ∧ AvoidsOutput names' expressions' := by
  obtain ⟨hnames, hexpressions⟩ := h
  rw [List.mem_append, not_or] at hnames
  rw [List.forall_mem_append] at hexpressions
  exact ⟨⟨hnames.1, hexpressions.1⟩, hnames.2, hexpressions.2⟩

/-- A tree without the output variable avoids it. -/
theorem avoidsOutput_of_notMem {nodes : List Node} (h : outputVariable ∉ treeVariables nodes) :
    AvoidsOutput (fixedNames nodes) (expressions nodes) := by
  rw [treeVariables, List.mem_append, not_or] at h
  exact ⟨h.1, fun e he hx => h.2 (List.mem_flatMap.mpr ⟨e, he, hx⟩)⟩

/-- A node that avoids the output variable does not read it. -/
theorem notMem_reads {node : Node} (hnode : node.isInterpolation = true)
    (h : AvoidsOutput node.fixedNames node.expressions) : outputVariable ∉ node.reads [] := by
  obtain ⟨hnames, hexpressions⟩ := h
  match node with
  | .echo expression _ =>
    rw [Node.reads, unbound_nil]
    exact hexpressions expression List.mem_cons_self
  | .host code true =>
    rw [Node.reads, unbound_nil]
    exact hnames
  | .component tag attributes content slots =>
    intro hx
    rw [Node.reads, List.append_assoc] at hx
    rcases List.mem_append.mp hx with hx | hx
    · obtain ⟨e, he, hx⟩ := List.mem_flatMap.mp hx
      rw [unbound_nil] at hx
      exact hexpressions e he hx
    · exact hnames hx

/-- A value for the output variable changes none of the names that leave it out. -/
theorem agreeOn_update {names : List String} (h : outputVariable ∉ names) (s : Store machine.Value)
    (v : machine.Value) : AgreeOn names (Function.update s outputVariable v) s := by
  intro x hx
  have hne : x ≠ outputVariable := by
    rintro rfl
    exact hx.elim h (by decide)
  exact Function.update_of_ne hne v s

/-! ## Statements and markup -/

/-- An interpolation is appended where its tag prints it. -/
theorem paired_append (hlaw : machine.Lawful) (hslot : ReadsContent machine slot) {node : Node}
    (hnode : node.isInterpolation = true) (htidy : node.Tidy (Obeys machine))
    (hkeeps : KeepsMentions node.spellings)
    (havoids : AvoidsOutput node.fixedNames node.expressions) :
    Paired (fun value part => part.isText = false ∧
        Appends (part.exec machine) ((Stmt.append value).exec machine))
      (interpolation slot path node) (markupOf slot path node) := by
  refine ((paired_interpolation hnode htidy).gives (gives_interpolation hslot hkeeps)).mono
    fun value part h => ⟨h.2.1, ?_⟩
  rw [h.2.2, Stmt.exec]
  exact appends_acting hlaw fun s v => h.1 _ _ (agreeOn_update (notMem_reads hnode havoids) s v)

/-- Host statements are completed in statements, and left out if they are blank. -/
theorem appends_host {code : String} (h : Silent machine code) :
    Appends ((Markup.host code).exec machine) ((Stmt.host code).exec machine) := by
  have hexec : ∀ code', (∀ s, machine.perform code' s = machine.perform code s) →
      ∀ s, execHost machine code' s = ([], (machine.perform code s).2) := by
    intro code' hcode s
    simp only [execHost, hcode, h.prints_nothing, if_true]
  have hmarkup := hexec code fun _ => rfl
  refine appends_of_quiet (fun s => by rw [Markup.exec, hmarkup]; rfl) fun s v => ?_
  rw [Markup.exec, Stmt.exec, hmarkup]
  split
  · rename_i hblank
    rw [h.blank hblank]
    rfl
  · rw [hexec _ h.ended, h.apart]

/-- A visible text becomes statements that append its values. -/
theorem statements_visibleText (afterTag : Bool) (content : String) (nodes : List Node) :
    statements slot path (visibleText afterTag content ++ nodes) = (do
      return (textValues afterTag content).map Stmt.append ++ (← statements slot path nodes)) := by
  show statements slot path ((if printedText afterTag content = "" then []
    else [Node.text (printedText afterTag content)]) ++ nodes) = _
  unfold textValues
  split
  · simp
  · simp [statements, statementOf, interpolation]

/-- A text is appended as it is printed. -/
theorem appends_text (hlaw : machine.Lawful) (afterTag : Bool) (content : String)
    {rest : Exec machine} {body : List Stmt} (h : Appends rest (execStatements machine body)) :
    Appends
      ((Exec.acting fun _ => literalActs machine (printedText afterTag content)).andThen rest)
      (execStatements machine ((textValues afterTag content).map Stmt.append ++ body)) := by
  unfold textValues
  split
  · rename_i hempty
    rw [hempty, literalActs_empty]
    exact h
  · rw [List.map_singleton, List.singleton_append, execStatements, Stmt.exec]
    simp only [Expr.acts]
    exact (appends_acting hlaw fun _ _ => rfl).andThen h

mutual

/-- The statement of a node appends what its markup prints. -/
theorem paired_statementOf (hlaw : machine.Lawful) (hslot : ReadsContent machine slot)
    (node : Node)
    (htext : node.isText = false) (htidy : node.Tidy (Obeys machine))
    (hkeeps : KeepsMentions node.spellings)
    (havoids : AvoidsOutput node.fixedNames node.expressions) :
    Paired (fun s part => part.isText = false ∧ Appends (part.exec machine) (s.exec machine))
      (statementOf slot path node.visible) (markupOf slot path node) := by
  match node with
  | .comment _ =>
    refine paired_pure ⟨rfl, ?_⟩
    rw [Markup.exec, Stmt.exec]
    exact appends_skip
  | .echo .. | .host _ true | .component .. =>
    exact (paired_append hlaw hslot rfl htidy hkeeps havoids).map_left fun _ _ h => h
  | .host code false => exact paired_pure ⟨rfl, appends_host htidy⟩
  | .flag kind expression =>
    refine paired_pure ⟨rfl, ?_⟩
    rw [Markup.exec, Stmt.exec]
    refine appends_execBranch (fun e he => ?_) (appends_acting hlaw fun _ _ => rfl) appends_skip
    rw [← Option.some.inj he]
    exact havoids.2 expression List.mem_cons_self
  | .conditional branches =>
    refine (paired_branchesStatements hlaw hslot branches htidy hkeeps havoids).bind
      fun body parts h => paired_pure ⟨rfl, ?_⟩
    rw [Markup.exec, Stmt.exec]
    exact h
  | .existence expression body =>
    have hexpression := havoids.2 expression List.mem_cons_self
    refine (paired_statements hlaw hslot body true htidy hkeeps
      ⟨havoids.1, fun e he => havoids.2 e (List.mem_cons_of_mem _ he)⟩).bind
      fun statements parts h => paired_pure ⟨rfl, ?_⟩
    rw [Markup.exec, Stmt.exec]
    exact appends_execPresence hexpression h
  | .loop head bindings body =>
    have hparts : AvoidsOutput (head.names ++ bindings.map (·.name) ++ fixedNames body)
        (head.collection :: bindings.map (·.value) ++ expressions body) := havoids
    obtain ⟨hloop, hbody⟩ := hparts.append
    obtain ⟨hhead, hnames⟩ := not_or.mp fun h => hloop.1 (List.mem_append.mpr h)
    obtain ⟨hcollection, hvalues⟩ := List.forall_mem_cons.mp hloop.2
    refine (paired_statements hlaw hslot body true htidy hkeeps hbody).bind
      fun statements parts h => paired_pure ⟨rfl, ?_⟩
    rw [Markup.exec, Stmt.exec]
    exact appends_execLoop hcollection hhead hnames
      (fun b hb => hvalues b.value (List.mem_map_of_mem hb)) h

/-- **The statements of a tree as it is printed do what its markup does**, and append what it
prints. -/
theorem paired_statements (hlaw : machine.Lawful) (hslot : ReadsContent machine slot)
    (nodes : List Node) (afterTag : Bool) (htidy : Tidy (Obeys machine) nodes)
    (hkeeps : KeepsMentions (spellings nodes))
    (havoids : AvoidsOutput (fixedNames nodes) (expressions nodes)) :
    Paired (fun body parts => Appends (execMarkup machine (printedText afterTag) "" parts)
        (execStatements machine body))
      (statements slot path (visible afterTag nodes)) (markup slot path nodes) := by
  match nodes with
  | [] =>
    refine paired_pure ?_
    rw [execMarkup_nil, execStatements]
    exact appends_skip
  | node :: nodes =>
    obtain ⟨hnode, hparted, hnodes⟩ := htidy
    obtain ⟨havoidsNode, havoidsNodes⟩ := AvoidsOutput.append havoids
    obtain ⟨hkeepsNode, hkeepsNodes⟩ := hkeeps.of_append
    cases htext : node.isText with
    | true =>
      obtain ⟨content, rfl⟩ := exists_text_of_isText htext
      -- no text follows the text, so the markup of the rest is no continuation of it
      have hrest := (paired_statements hlaw hslot nodes false hnodes hkeepsNodes
        havoidsNodes).gives_right (gives_markup_opensWithText slot path nodes)
      rw [visible, statements_visibleText, markup, markupOf, pure_bind]
      refine hrest.bind fun body parts h => paired_pure ?_
      rw [execMarkup_text afterTag content (h.2.trans (hparted rfl))]
      exact appends_text hlaw afterTag content h.1
    | false =>
      rw [visible_cons htext, statements, markup]
      refine (paired_statementOf hlaw hslot node htext hnode hkeepsNode havoidsNode).bind
        fun s part hs => (paired_statements hlaw hslot nodes true hnodes hkeepsNodes
          havoidsNodes).bind fun body parts h => paired_pure ?_
      rw [execMarkup_tag hs.1, execStatements]
      exact hs.2.andThen h

/-- The statements of branches append what their markup prints. -/
theorem paired_branchesStatements (hlaw : machine.Lawful) (hslot : ReadsContent machine slot)
    (branches : List Branch) (htidy : BranchesTidy (Obeys machine) branches)
    (hkeeps : KeepsMentions (branchesSpellings branches))
    (havoids : AvoidsOutput (branchesFixedNames branches) (branchesExpressions branches)) :
    Paired (fun body parts => Appends (execMarkupBranches machine parts)
        (execStmtBranches machine body))
      (branchesStatements slot path (visibleBranches branches))
      (branchesMarkup slot path branches) := by
  match branches with
  | [] =>
    refine paired_pure ?_
    rw [execMarkupBranches, execStmtBranches]
    exact appends_skip
  | ⟨condition, body⟩ :: branches =>
    obtain ⟨hfirst, hbranches⟩ := AvoidsOutput.append havoids
    obtain ⟨hcondition, hbody⟩ := List.forall_mem_append.mp hfirst.2
    obtain ⟨hkeepsBody, hkeepsBranches⟩ := hkeeps.of_append
    rw [visibleBranches, branchesStatements, branchesMarkup]
    refine (paired_statements hlaw hslot body true htidy.1 hkeepsBody ⟨hfirst.1, hbody⟩).bind
      fun statements parts h => (paired_branchesStatements hlaw hslot branches htidy.2
        hkeepsBranches hbranches).bind fun rest others hrest => paired_pure ?_
    rw [execMarkupBranches, execStmtBranches]
    exact appends_execBranch (fun e he => hcondition e (Option.mem_toList.mpr he)) h hrest
end

/-! ## Values of slots -/

/-- The value of a slot in the buffered form: of the content as it is where it is a string or an
expression otherwise, and with repeated calls bound where it is compiled that way otherwise. -/
def bufferedSlot (path : String) (nesting : Nat) (nodes : List Node) : Emit SlotCode :=
  let slot := slotCode path nesting
  let body := trimSlot nodes
  match slotForm body with
  | .literal | .expression => return .buffered (captured body []) [] (← markup slot path body)
  | .statements | .buffered => do
    let (deduped, locals) ← taking (dedup body)
    return .buffered (captured body []) locals (← markup slot path deduped)

/-- The values do the same and yield the same in every store. -/
def YieldsLike (machine : Machine) (code other : SlotCode) : Prop :=
  ∀ s, code.acts machine s = other.acts machine s ∧ code.yield machine s = other.yield machine s

/-- A buffered slot does what its markup does, in the closure's variables. -/
theorem acts_bufferedSlot (s : Store machine.Value) (uses : List String) (locals : List Binding)
    (parts : List Markup) : (SlotCode.buffered uses locals parts).acts machine s =
      (execMarkup machine (printedText false) "" parts
        (machine.bindAll locals (machine.closed uses s))).1 := by
  have hprinted : dropLineEnd ∘ afterTag = printedText false := funext dropLineEnd_afterTag
  rw [SlotCode.acts, hprinted]

/-- A buffered slot yields what its markup prints. -/
theorem yield_bufferedSlot (s : Store machine.Value) (uses : List String) (locals : List Binding)
    (parts : List Markup) : (SlotCode.buffered uses locals parts).yield machine s =
      output machine ((SlotCode.buffered uses locals parts).acts machine s) := by
  rw [SlotCode.yield, SlotCode.acts]

/-- Text that stands beside no text is one text at most. -/
theorem eq_of_all_isText {law : String → Bool → Prop} {nodes : List Node} (htidy : Tidy law nodes)
    (h : nodes.all Node.isText = true) : nodes = [] ∨ ∃ content, nodes = [.text content] := by
  match nodes with
  | [] => exact .inl rfl
  | [.text content] => exact .inr ⟨content, rfl⟩
  | .text _ :: .text _ :: _ => exact absurd (htidy.2.1 rfl) Bool.noConfusion

/-- A slot of nothing but text yields as a literal what it yields when it is buffered. -/
theorem paired_literal (path : String) (nesting : Nat) {body : List Node}
    {law : String → Bool → Prop} (htidy : Tidy law body) (h : body.all Node.isText = true)
    (uses : List String) :
    Paired (YieldsLike machine) (pure (.literal (textOf body)))
      (do return .buffered uses [] (← markup (slotCode path nesting) path body)) := by
  have hlike : ∀ content parts, (∀ s, (execMarkup machine (printedText false) "" parts s).1 =
      literalActs machine content) →
      YieldsLike machine (.literal content) (.buffered uses [] parts) := by
    intro content parts hparts s
    rw [yield_bufferedSlot, acts_bufferedSlot, hparts, output_literalActs, SlotCode.acts,
      SlotCode.yield]
    exact ⟨rfl, rfl⟩
  rcases eq_of_all_isText htidy h with rfl | ⟨content, rfl⟩
  · refine paired_pure (hlike _ _ fun s => ?_)
    rw [execMarkup_nil, show textOf [] = "" from rfl, literalActs_empty]
    rfl
  · have htext : textOf [.text content] = content := by
      rw [textOf, List.map_singleton, String.join_cons, String.join_nil, String.append_empty]
    rw [htext]
    refine paired_pure (hlike _ _ fun s => ?_)
    rw [execMarkup_text false content rfl, execMarkup_nil, Exec.andThen_skip]
    rfl

/-- One expression yields what the markup of the content prints in a closure. -/
theorem paired_value (path : String) (nesting : Nat) {body : List Node}
    (htidy : Tidy (Obeys machine) body) (hkeeps : KeepsMentions (spellings body))
    (hform : slotForm body = .expression) :
    Paired (YieldsLike machine)
      (do return .expression (← expression (slotCode path nesting) path (visible false body)))
      (do return .buffered (captured body []) []
            (← markup (slotCode path nesting) path body)) := by
  have hvalues := hasValue_of_isInterpolationAlone (isInterpolationAlone_of_slotForm hform).1
  refine ((paired_expression htidy hvalues).gives (gives_expression
    (readsContent_slotCode machine path nesting) hkeeps false)).bind
    fun value parts h => paired_pure fun s => ?_
  have hclosed : value.acts machine s = value.acts machine (machine.closed (captured body []) s) :=
    h.1 _ _ (agreeOn_closed (fun x hx hfixed => mem_captured.mpr ⟨hx, hfixed⟩) s)
  rw [yield_bufferedSlot, acts_bufferedSlot, h.2, SlotCode.acts, SlotCode.yield, hclosed]
  exact ⟨rfl, rfl⟩

/-- The statements of a closure yield what the markup of a closure prints. -/
theorem yieldsLike_statements (hlaw : machine.Lawful) {body : List Stmt} {parts : List Markup}
    (h : Appends (execMarkup machine (printedText false) "" parts) (execStatements machine body))
    (uses : List String) (locals : List Binding) :
    YieldsLike machine (.statements uses locals body) (.buffered uses locals parts) := by
  intro s
  have hbody := h (machine.bindAll locals (machine.closed uses s)) ""
  rw [yield_bufferedSlot, acts_bufferedSlot, SlotCode.acts, SlotCode.yield, hbody]
  refine ⟨rfl, ?_⟩
  dsimp only
  rw [Function.update_self, hlaw.shown_ofText, String.empty_append]

/-- The value of a slot yields what it yields. -/
theorem yieldsLike_refl (code : SlotCode) : YieldsLike machine code code := fun _ => ⟨rfl, rfl⟩

/-- **Every form of a slot's value yields what buffering yields**, in every store, and does the
same on the way: the same tests, turns of loops, assignments and prints, in order. It takes the
same names. The content may nest as many slots as allowed. -/
theorem yield_slotCode (hlaw : machine.Lawful) (path : String) {nesting : Nat} {nodes : List Node}
    (hnesting : slotDepth nodes ≤ nesting) (htidy : Tidy (Obeys machine) nodes)
    (hkeeps : KeepsMentions (spellings nodes)) (taken : Names)
    (hdeduped : ∀ deduped, deduped = ((dedup (trimSlot nodes)).run taken).1.1 →
      outputVariable ∉ treeVariables deduped ∧ KeepsMentions (spellings deduped)) :
    ∃ code buffered taken', (slotCode path (nesting + 1) nodes).run taken = .ok (code, taken') ∧
      (bufferedSlot path nesting nodes).run taken = .ok (buffered, taken') ∧
      YieldsLike machine code buffered := by
  obtain ⟨code, taken', hcode⟩ := succeeds_slotCode path (Nat.lt_succ_of_le hnesting) taken
  have hbody := tidy_trimSlot htidy
  rw [← spellings_trimSlot] at hkeeps
  suffices hbuffered : ∃ buffered, (bufferedSlot path nesting nodes).run taken =
      .ok (buffered, taken') ∧ YieldsLike machine code buffered by
    obtain ⟨buffered, hrun, hlike⟩ := hbuffered
    exact ⟨code, buffered, taken', hcode, hrun, hlike⟩
  rw [slotCode] at hcode
  unfold bufferedSlot
  dsimp only at hcode ⊢
  cases hform : slotForm (trimSlot nodes) with
  | literal =>
    rw [hform] at hcode
    exact paired_literal path nesting hbody (all_isText_of_slotForm hform) _ _ _ _ hcode
  | expression =>
    rw [hform] at hcode
    exact paired_value path nesting hbody hkeeps hform _ _ _ hcode
  | statements =>
    rw [hform] at hcode
    dsimp only at hcode ⊢
    -- both forms bind repeated calls first, which takes names and cannot fail
    rw [run_bind (a := ((dedup (trimSlot nodes)).run taken).1) rfl] at hcode ⊢
    obtain ⟨hout, hkeepsDeduped⟩ := hdeduped _ rfl
    refine ((paired_statements hlaw (readsContent_slotCode machine path nesting) _ false
      (tidy_dedup hbody taken) hkeepsDeduped (avoidsOutput_of_notMem hout)).bind
      fun body parts h => ?_) _ _ _ hcode
    exact paired_pure (yieldsLike_statements hlaw h _ _)
  | buffered =>
    rw [hform] at hcode
    exact ⟨code, hcode, yieldsLike_refl code⟩

/-- Host statements, and a loop with a test in its body. -/
def guarded : List Node :=
  [.host "$n = 1;" false, .loop ⟨"$a", "u", none⟩ []
    [.conditional [⟨some "$u", [.echo "$u" true]⟩, ⟨none, [.echo "$n" false]⟩]]]

/-- The content is compiled to statements and yields the same. -/
theorem yield_slotCode_guarded :
    slotForm (trimSlot guarded) = .statements ∧ ∃ code buffered taken',
      (slotCode "" 1 guarded).run [] = .ok (code, taken') ∧
      (bufferedSlot "" 0 guarded).run [] = .ok (buffered, taken') ∧
      YieldsLike (.ofLists "") code buffered := by
  have hsilent : Silent (.ofLists "") "$n = 1;" :=
    ⟨fun _ => rfl, fun _ => rfl, fun _ _ => rfl, fun _ _ => rfl⟩
  have htidy : Tidy (Obeys (.ofLists "")) guarded := by
    simp [guarded, Tidy, Node.Tidy, BranchesTidy, startsWithText, Node.isText, Obeys, hsilent]
  have hnone : spellings guarded = [] := by decide +kernel
  have hnoneDeduped : spellings ((dedup (trimSlot guarded)).run []).1.1 = [] := by decide +kernel
  refine ⟨by decide, @yield_slotCode (.ofLists "") (Machine.lawful_ofLists "") "" 0 guarded
    (by decide) htidy (fun p hp => absurd (hnone ▸ hp) List.not_mem_nil) [] ?_⟩
  rintro deduped rfl
  exact ⟨by decide +kernel, fun p hp => absurd (hnoneDeduped ▸ hp) List.not_mem_nil⟩

/-- **Host statements that print are no part of what statements yield**: what they print is not
appended, while buffering catches it. -/
theorem exists_yield_slotCode_ne :
    (Machine.ofLists "1").Lawful ∧ slotForm (trimSlot [.host "echo 1;" false]) = .statements ∧
      outputVariable ∉ treeVariables [.host "echo 1;" false] ∧
      ∃ code buffered taken',
        (slotCode "" 1 [.host "echo 1;" false]).run [] = .ok (code, taken') ∧
        (bufferedSlot "" 0 [.host "echo 1;" false]).run [] = .ok (buffered, taken') ∧
        code.yield (.ofLists "1") (fun _ => ([] : List String)) ≠
          buffered.yield (.ofLists "1") fun _ => ([] : List String) := by
  refine ⟨Machine.lawful_ofLists "1", by decide, by decide +kernel, ?_⟩
  obtain ⟨code, buffered, taken', hcode, hbuffered, hne⟩ := exists_of_bothGive
    (show bothGive (slotCode "" 1 [.host "echo 1;" false])
      (bufferedSlot "" 0 [.host "echo 1;" false]) [] (fun code buffered =>
        code.yield (.ofLists "1") (fun _ => ([] : List String)) !=
          buffered.yield (.ofLists "1") fun _ => ([] : List String)) = true by decide +kernel)
  exact ⟨code, buffered, taken', hcode, hbuffered, bne_iff_ne.mp hne⟩

end ViewCompiler.Compile
