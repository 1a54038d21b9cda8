import ViewCompiler.Proofs.Compile.Declared
import ViewCompiler.Proofs.Compile.Introducing
import ViewCompiler.Proofs.Compile.Reads
import ViewCompiler.Proofs.Php.Headers
import ViewCompiler.Proofs.Template.Choosing
import ViewCompiler.Proofs.Template.FreeVariables

/-!
# Headers in a compiled template

A closure captures names in order, each once, and none that is bound around its body or that is the
same in every scope (`capturesLegally_captured`). The parameters of a unit and of the closures for
slots are fixed. The function that maps the elements of a loop has the loop's variables for
parameters, as they are written. Hence the headers of a compiled template are legal unless a loop
is mapped whose variables PHP does not take as parameters (`legal_iff_of_compile`).
-/

namespace ViewCompiler.Template

/-! ## Names in order -/

/-- The captured names are in order, each once. -/
theorem pairwise_captured (nodes : List Node) (bound : List String) :
    (captured nodes bound).Pairwise (· < ·) := (pairwise_sorted _).filter _

/-! ## The variables of outermost loops -/

/-- The names that a loop assigns. Other nodes are no loops. -/
def Node.outerNames : Node → List (List String)
  | .loop head _ _ => [head.names]
  | _ => []

/-- The names that the outermost loops of a tree assign, loop by loop. -/
def outerNames (nodes : List Node) : List (List String) := nodes.flatMap Node.outerNames

/-- The outline has the variables of the loops. -/
theorem outerNames_outline (nodes : List Node) :
    outerNames (outline nodes) = outerNames nodes := by
  rw [outline_eq_map, outerNames, List.flatMap_map]
  refine List.flatMap_congr fun node _ => ?_
  cases node <;> rfl

/-- Deduplication leaves the variables that loops assign as they are. -/
theorem outerNames_dedup (nodes : List Node) (taken : Names) :
    outerNames ((dedup nodes).run taken).1.1 = outerNames nodes := by
  rw [← outerNames_outline, outline_dedup, outerNames_outline]

/-- Turning accesses into calls leaves the variables that loops assign as they are. -/
theorem outerNames_withCalls (nodes : List Node) :
    outerNames (withCalls nodes) = outerNames nodes := by
  induction nodes with
  | nil => rfl
  | cons node nodes ih =>
    refine congrArg₂ (· ++ ·) ?_ ih
    cases node <;> rfl

/-- A tree as it is printed has the same loops. -/
theorem outerNames_visible (afterTag : Bool) (nodes : List Node) :
    outerNames (visible afterTag nodes) = outerNames nodes := by
  induction nodes generalizing afterTag with
  | nil => rfl
  | cons node nodes ih =>
    cases htext : node.isText with
    | true =>
      obtain ⟨text, rfl⟩ := exists_text_of_isText htext
      have hnone : (visibleText afterTag text).flatMap Node.outerNames = [] := by
        refine List.flatMap_eq_nil_iff.mpr fun node hnode => ?_
        obtain ⟨printed, rfl⟩ := exists_text_of_isText (isText_of_mem_visibleText hnode)
        rfl
      rw [visible, outerNames, List.flatMap_append, hnone]
      exact ih false
    | false =>
      rw [visible_cons htext]
      refine congrArg₂ (· ++ ·) ?_ (ih true)
      cases node <;> rfl

/-- A tree with a loop to map has no loop beside it. -/
theorem outerNames_of_mapCandidate? {nodes : List Node} {candidate : MapCandidate}
    (h : mapCandidate? (visible false nodes) = some candidate) :
    outerNames nodes = [candidate.head.names] := by
  rw [← outerNames_visible false]
  exact Compile.flatMap_of_mapCandidate? h (fun _ => rfl) fun _ => rfl

end ViewCompiler.Template

namespace ViewCompiler.Compile

open Php
open Template

/-! ## Captured names -/

/-- **A closure over a tree captures legally** if its parameters are bound in the tree. -/
theorem capturesLegally_captured {params bound : List String} (h : params ⊆ bound) (isArrow : Bool)
    (type : String) (nodes : List Node) :
    (Header.mk isArrow type params (captured nodes bound)).CapturesLegally where
  sorted := pairwise_captured nodes bound
  disjoint _ hx hparam := (mem_reads.mp (mem_captured.mp hx).1).2 (h hparam)
  allowed _ hx := (mem_captured.mp hx).2

/-- A function may be without parameters. -/
theorem areParameters_nil : AreParameters [] := by decide

/-- The container of the data may be the parameter of a function. -/
theorem areParameters_dataName : AreParameters [dataName] := by decide

/-! ## Computations that give legal headers -/

section GivesLegal

variable {α β γ : Type} {found : α → List Header} {found' : β → List Header}
  {found'' : γ → List Header}

/-- All headers in what the computation gives are legal. -/
def GivesLegal (found : α → List Header) (m : Emit α) : Prop :=
  Gives m fun a => ∀ h ∈ found a, h.Legal

/-- Code without headers has legal headers. -/
theorem givesLegal_pure {a : α} (h : found a = []) : GivesLegal found (pure a) :=
  gives_pure fun header hheader => by
    rw [h] at hheader
    cases hheader

/-- What fails gives no header. -/
theorem givesLegal_throw (e : EmitError) : GivesLegal found (throw e : Emit α) := gives_throw e

/-- What is made from code and has the same headers has legal headers. -/
theorem GivesLegal.map {m : Emit α} {f : α → β} (hm : GivesLegal found m)
    (hf : ∀ a, found' (f a) = found a) : GivesLegal found' (m >>= fun a => pure (f a)) :=
  hm.bind fun a ha => gives_pure (hf a ▸ ha)

/-- A header in front of those in what the computation gives. -/
theorem GivesLegal.behind {m : Emit α} {f : α → β} {header : Header} (hm : GivesLegal found m)
    (hheader : header.Legal) (hf : ∀ a, found' (f a) = header :: found a) :
    GivesLegal found' (m >>= fun a => pure (f a)) :=
  hm.bind fun a ha => gives_pure (hf a ▸ List.forall_mem_cons.mpr ⟨hheader, ha⟩)

/-- Two computations whose results are put together. -/
theorem GivesLegal.both {m : Emit α} {m' : Emit β} {f : α → β → γ} (hm : GivesLegal found m)
    (hm' : GivesLegal found' m') (hf : ∀ a b, found'' (f a b) = found a ++ found' b) :
    GivesLegal found'' (m >>= fun a => m' >>= fun b => pure (f a b)) :=
  hm.bind fun a ha => hm'.bind fun b hb =>
    gives_pure (hf a b ▸ List.forall_mem_append.mpr ⟨ha, hb⟩)

/-- The parts of a list have legal headers together if each of them has. -/
theorem givesLegal_mapM {δ : Type} {f : δ → Emit α} {ds : List δ}
    (h : ∀ d ∈ ds, GivesLegal found (f d)) :
    GivesLegal (fun as : List α => as.flatMap found) (ds.mapM f) := by
  intro taken as left hrun header hheader
  obtain ⟨a, ha, hheader⟩ := List.mem_flatMap.mp hheader
  exact gives_mapM h _ _ _ hrun a ha header hheader

end GivesLegal

/-! ## Forms -/

/-- All headers in slots are legal. -/
def LegalInSlots (slot : SlotCompiler) : Prop :=
  ∀ content, GivesLegal SlotCode.headers (slot content)

section Forms

variable {slot : SlotCompiler} {path : String}

/-- The headers of named slots are those of their values, in order. -/
theorem argumentsHeaders_eq_flatMap (slots : List SlotArgument) :
    argumentsHeaders slots = slots.flatMap fun s => s.value.headers := by
  induction slots with
  | nil => rfl
  | cons s slots ih =>
    obtain ⟨name, value⟩ := s
    rw [argumentsHeaders, ih, List.flatMap_cons]

/-- The headers of expressions are those of each, in order. -/
theorem exprsHeaders_eq_flatMap (values : List Expr) :
    exprsHeaders values = values.flatMap Expr.headers := by
  induction values with
  | nil => rfl
  | cons value values ih => rw [exprsHeaders, ih, List.flatMap_cons]

/-- Joining values with dots adds no header. -/
theorem headers_joinParts (parts : List Expr) :
    (joinParts parts).headers = parts.flatMap Expr.headers := by
  unfold joinParts
  split
  · rfl
  · rw [List.flatMap_cons, List.flatMap_nil, List.append_nil]
  · rw [Expr.headers, exprsHeaders_eq_flatMap]

/-- The headers in a component are legal if those of its slots are. -/
theorem legal_component (hslot : LegalInSlots slot) (tag : String) (attributes : List Attribute)
    (content : List Node) (slots : List NamedSlot) :
    GivesLegal Expr.headers (component slot path tag attributes content slots) := by
  have hnamed : GivesLegal argumentsHeaders (slotArguments slot slots) := by
    rw [funext argumentsHeaders_eq_flatMap]
    exact givesLegal_mapM fun s _ => (hslot s.body).map fun _ => rfl
  have hdefault : GivesLegal contentHeaders (contentCode slot content) := by
    unfold contentCode
    split
    · exact givesLegal_pure rfl
    · exact (hslot _).map fun _ => rfl
  exact hnamed.both hdefault fun _ _ => rfl

/-- The headers in the value of a node are legal. -/
theorem legal_interpolation (hslot : LegalInSlots slot) (node : Node) :
    GivesLegal Expr.headers (interpolation slot path node) := by
  cases node with
  | text => exact givesLegal_pure rfl
  | echo expression escaped =>
    refine givesLegal_pure ?_
    unfold echoExpression
    split
    · rfl
    · split <;> rfl
  | host code echo =>
    cases echo with
    | true => exact givesLegal_pure rfl
    | false => exact givesLegal_throw _
  | component tag attributes content slots =>
    exact legal_component hslot tag attributes content slots
  | comment => exact givesLegal_throw _
  | conditional => exact givesLegal_throw _
  | loop => exact givesLegal_throw _
  | existence => exact givesLegal_throw _
  | flag => exact givesLegal_throw _

/-- The headers in the value of a tree are legal. -/
theorem legal_expression (hslot : LegalInSlots slot) (nodes : List Node) :
    GivesLegal Expr.headers (expression slot path nodes) :=
  (givesLegal_mapM fun node _ => legal_interpolation hslot node).map headers_joinParts

mutual

/-- The headers in the markup of a node are legal. -/
theorem legal_markupOf (hslot : LegalInSlots slot) (node : Node) :
    GivesLegal Markup.headers (markupOf slot path node) := by
  match node with
  | .text _ | .comment _ | .flag .. | .host _ true | .host _ false => exact givesLegal_pure rfl
  | .echo expression escaped =>
    refine givesLegal_pure ?_
    unfold echoMarkup
    split
    · rfl
    · split <;> rfl
  | .component tag attributes content slots =>
    exact (legal_component hslot tag attributes content slots).map fun _ => rfl
  | .conditional branches => exact (legal_branchesMarkup hslot branches).map fun _ => rfl
  | .loop head bindings body => exact (legal_markup hslot body).map fun _ => rfl
  | .existence expression body => exact (legal_markup hslot body).map fun _ => rfl

/-- The headers in markup are those of the closures in it. -/
theorem legal_markup (hslot : LegalInSlots slot) (nodes : List Node) :
    GivesLegal markupHeaders (markup slot path nodes) := by
  match nodes with
  | [] => exact givesLegal_pure rfl
  | node :: nodes =>
    exact (legal_markupOf hslot node).both (legal_markup hslot nodes) fun _ _ => rfl

/-- The headers in the markup of branches are legal. -/
theorem legal_branchesMarkup (hslot : LegalInSlots slot) (branches : List Branch) :
    GivesLegal markupBranchesHeaders (branchesMarkup slot path branches) := by
  match branches with
  | [] => exact givesLegal_pure rfl
  | ⟨condition, body⟩ :: branches =>
    exact (legal_markup hslot body).both (legal_branchesMarkup hslot branches) fun _ _ => rfl
end

mutual

/-- The headers in the statement of a node are legal. -/
theorem legal_statementOf (hslot : LegalInSlots slot) (node : Node) :
    GivesLegal Stmt.headers (statementOf slot path node) := by
  match node with
  | .comment _ | .host _ false | .flag .. => exact givesLegal_pure rfl
  | .text _ | .echo .. | .host _ true | .component .. =>
    exact (legal_interpolation hslot _).map fun _ => rfl
  | .conditional branches => exact (legal_branchesStatements hslot branches).map fun _ => rfl
  | .loop head bindings body => exact (legal_statements hslot body).map fun _ => rfl
  | .existence expression body => exact (legal_statements hslot body).map fun _ => rfl

/-- The headers in statements are those of the closures in them. -/
theorem legal_statements (hslot : LegalInSlots slot) (nodes : List Node) :
    GivesLegal statementsHeaders (statements slot path nodes) := by
  match nodes with
  | [] => exact givesLegal_pure rfl
  | node :: nodes =>
    exact (legal_statementOf hslot node).both (legal_statements hslot nodes) fun _ _ => rfl

/-- The headers in the statements of branches are legal. -/
theorem legal_branchesStatements (hslot : LegalInSlots slot) (branches : List Branch) :
    GivesLegal statementBranchesHeaders (branchesStatements slot path branches) := by
  match branches with
  | [] => exact givesLegal_pure rfl
  | ⟨condition, body⟩ :: branches =>
    exact (legal_statements hslot body).both (legal_branchesStatements hslot branches)
      fun _ _ => rfl
end

end Forms

/-! ## Slots and units -/

/-- **All headers in the code of a slot are legal**, those of slots in slots included. -/
theorem legalInSlots_slotCode (path : String) (nesting : Nat) :
    LegalInSlots (slotCode path nesting) := by
  induction nesting with
  | zero => exact fun _ => givesLegal_throw _
  | succ nesting ih =>
    intro nodes
    have harrow : (Header.mk true "" [] []).Legal :=
      ⟨areParameters_nil, Header.capturesLegally_nil true "" []⟩
    have hclosure (body : List Node) : (Header.mk false "" [] (captured body [])).Legal :=
      ⟨areParameters_nil, capturesLegally_captured (List.nil_subset []) false "" body⟩
    rw [slotCode]
    split
    · exact givesLegal_pure rfl
    · exact (legal_expression ih _).behind harrow fun _ => rfl
    · exact (gives_any _).bind fun _ _ =>
        (legal_statements ih _).behind (hclosure _) fun _ => rfl
    · exact (gives_any _).bind fun _ _ => (legal_markup ih _).behind (hclosure _) fun _ => rfl

/-- All headers capture legally, and they are legal unless a loop is mapped and the names that it
assigns are no parameters. -/
structure LegalUnlessMapped (form : Strategy) (assigned : List (List String))
    (headers : List Header) : Prop where
  captures : ∀ h ∈ headers, h.CapturesLegally
  legal_iff : (∀ h ∈ headers, h.Legal) ↔
    (form = .mapping → ∀ names ∈ assigned, AreParameters names)

section LegalUnlessMapped

variable {form : Strategy} {assigned : List (List String)} {headers : List Header}
  {header : Header}

/-- Where no loop is mapped, legal headers are all that is asked for. -/
theorem legalUnlessMapped_of_ne (hform : form ≠ .mapping) (h : ∀ k ∈ headers, k.Legal) :
    LegalUnlessMapped form assigned headers where
  captures k hk := (h k hk).capturesLegally
  legal_iff := iff_of_true h fun hmapping => absurd hmapping hform

/-- The header of a mapping, in front of legal ones. -/
theorem legalUnlessMapped_mapping (hassigned : assigned = [header.params])
    (hheader : header.CapturesLegally) (h : ∀ k ∈ headers, k.Legal) :
    LegalUnlessMapped .mapping assigned (header :: headers) where
  captures := List.forall_mem_cons.mpr ⟨hheader, fun k hk => (h k hk).capturesLegally⟩
  legal_iff := by
    rw [hassigned, List.forall_mem_cons, List.forall_mem_singleton]
    constructor
    · exact fun hlegal _ => hlegal.1.areParameters
    · exact fun hparams => ⟨⟨hparams rfl, hheader⟩, h⟩

/-- A legal header in front. -/
theorem LegalUnlessMapped.cons (h : LegalUnlessMapped form assigned headers)
    (hheader : header.Legal) : LegalUnlessMapped form assigned (header :: headers) where
  captures := List.forall_mem_cons.mpr ⟨hheader.capturesLegally, h.captures⟩
  legal_iff := by
    rw [List.forall_mem_cons, and_iff_right hheader]
    exact h.legal_iff

end LegalUnlessMapped

/-- The variables of a loop are the parameters of its mapping, and they are bound in its body. -/
theorem gives_loopMap_headers {slot : SlotCompiler} (hslot : LegalInSlots slot) (path : String)
    (candidate : MapCandidate) :
    Gives (loopMap slot path candidate) fun map =>
      LegalUnlessMapped .mapping [candidate.head.names] (map.header :: map.value.headers) := by
  refine (legal_expression hslot candidate.body).bind fun value hvalue => gives_pure ?_
  refine legalUnlessMapped_mapping rfl ?_ hvalue
  unfold LoopMap.header
  -- an arrow function captures by itself, so only a closure with local variables lists names
  cases candidate.bindings with
  | nil => exact Header.capturesLegally_nil true "mixed" _
  | cons b bindings =>
    exact capturesLegally_captured (List.subset_append_left ..) false "mixed" candidate.body

/-- The headers of a unit's body are legal, except where its loop is mapped. -/
theorem gives_unitBody_headers (path : String) (form : Strategy) (nodes : List Node) :
    Gives (unitBody path form nodes) fun body =>
      LegalUnlessMapped form (outerNames nodes) body.headers := by
  have hslot : LegalInSlots (slotsOf path nodes) := legalInSlots_slotCode path (slotDepth nodes)
  have hvalue (hform : form ≠ .mapping) : Gives (do
      return UnitBody.value (← expression (slotsOf path nodes) path (visible false nodes)))
        fun body => LegalUnlessMapped form (outerNames nodes) body.headers :=
    (legal_expression hslot _).bind fun value h => gives_pure (legalUnlessMapped_of_ne hform h)
  unfold unitBody
  cases form with
  | direct => exact hvalue (by decide)
  | concatenation => exact hvalue (by decide)
  | buffered =>
    exact (legal_markup hslot nodes).bind fun body h =>
      gives_pure (legalUnlessMapped_of_ne (by decide) h)
  | mapping =>
    dsimp only
    split
    · rename_i candidate hcandidate
      rw [outerNames_of_mapCandidate? hcandidate]
      exact (gives_loopMap_headers hslot path candidate).bind fun map h => gives_pure h
    · exact gives_throw _

/-- A unit has a legal header of its own, and those in its body. -/
theorem gives_unitOf_headers (path : String) (nodes : List Node) :
    Gives (unitOf path nodes) fun result =>
      LegalUnlessMapped result.2 (outerNames nodes) result.1.headers := by
  have hdedup : Gives (taking (dedup nodes)) fun result =>
      outerNames result.1 = outerNames nodes := by
    intro taken result left hrun
    have hnames := outerNames_dedup nodes taken
    rwa [eq_of_run_taking hrun] at hnames
  refine hdedup.bind fun result hresult => ?_
  refine (gives_unitBody_headers path _ result.1).bind fun body hbody => gives_pure ?_
  rw [hresult] at hbody
  refine hbody.cons ⟨?_, Header.capturesLegally_nil _ "array" _⟩
  show AreParameters (if _ then [dataName] else [])
  split
  · exact areParameters_dataName
  · exact areParameters_nil

/-! ## Compiled templates -/

/-- A compiled template is the unit of its tree as it is printed. -/
theorem exists_run_of_compile {template path indent : String} {compiled : Compiled}
    (h : compile template path indent = .ok compiled) :
    ∃ nodes u left, parse template = .ok nodes ∧
      (unitOf path (withCalls nodes)).run [] = .ok ((u, compiled.strategy), left) ∧
      compiled.php = u.print indent := by
  obtain ⟨nodes, hparse⟩ :=
    (exists_parse_iff template).mpr ((exists_compiled_iff template path indent).mp ⟨compiled, h⟩)
  obtain ⟨⟨u, form⟩, left, hrun⟩ := succeeds_unitOf path (withCalls nodes) []
  obtain rfl := Except.ok.inj (h.symm.trans (compile_of_run hparse hrun indent))
  exact ⟨nodes, u, left, hparse, hrun, rfl⟩

/-- **The headers of a compiled template are legal if and only if no loop is mapped whose variables
PHP does not take as parameters.** They stand in the text one behind the other, and in any case the
closures capture legally. -/
theorem legal_iff_of_compile {template path indent : String} {compiled : Compiled}
    (h : compile template path indent = .ok compiled) :
    ∃ nodes u left, parse template = .ok nodes ∧
      (unitOf path (withCalls nodes)).run [] = .ok ((u, compiled.strategy), left) ∧
      compiled.php = u.print indent ∧ StandIn u.headers compiled.php ∧
      (∀ header ∈ u.headers, header.CapturesLegally) ∧
      ((∀ header ∈ u.headers, header.Legal) ↔
        (compiled.strategy = .mapping → ∀ names ∈ outerNames nodes, AreParameters names)) := by
  obtain ⟨nodes, u, left, hparse, hrun, hphp⟩ := exists_run_of_compile h
  have hheaders := gives_unitOf_headers path (withCalls nodes) _ _ _ hrun
  rw [outerNames_withCalls] at hheaders
  refine ⟨nodes, u, left, hparse, hrun, hphp, ?_, hheaders.captures, hheaders.legal_iff⟩
  rw [hphp]
  exact u.standIn_print indent

/-- A template that is compiled to a mapping and whose outermost loops assign these names. -/
theorem exists_mapping {template : String} {names : List (List String)}
    (hmapped : (compile template defaultNamespace defaultIndent).toOption.any
      (·.strategy = .mapping) = true)
    (hnames : (parse template).toOption.any (outerNames · = names) = true) :
    ∃ compiled nodes, compile template defaultNamespace defaultIndent = .ok compiled ∧
      compiled.strategy = .mapping ∧ parse template = .ok nodes ∧ outerNames nodes = names := by
  obtain ⟨nodes, hparse, hnodes⟩ := exists_parse_of_any hnames
  cases hcompile : compile template defaultNamespace defaultIndent with
  | error e =>
    rw [hcompile] at hmapped
    cases hmapped
  | ok compiled =>
    rw [hcompile] at hmapped
    exact ⟨compiled, nodes, rfl, of_decide_eq_true hmapped, hparse, of_decide_eq_true hnodes⟩

/-- A loop that is mapped: its two variables have different names, and its body has a repeated
call, the variable that it goes through, and a slot. -/
def mappedTemplate : String :=
  "@each($us as $i => $u)\x7b\x7b f($u.n, $u.n, $us) \x7d\x7d" ++
    "<x-a>\x7b\x7b $u \x7d\x7d</x-a>@endeach"

/-- Its headers are legal: those of the unit, of the mapping, and of the slot. -/
theorem legal_iff_of_compile_mapped :
    ∃ compiled, compile mappedTemplate defaultNamespace defaultIndent = .ok compiled ∧
      compiled.strategy = .mapping ∧ ∃ u : RenderUnit,
        compiled.php = u.print defaultIndent ∧ StandIn u.headers compiled.php ∧
        ∀ header ∈ u.headers, header.Legal := by
  obtain ⟨compiled, nodes, hcompile, hmapped, hparse, hnames⟩ :
      ∃ compiled nodes, compile mappedTemplate defaultNamespace defaultIndent = .ok compiled ∧
        compiled.strategy = .mapping ∧ parse mappedTemplate = .ok nodes ∧
        outerNames nodes = [["i", "u"]] :=
    exists_mapping (by decide +kernel) (by decide +kernel)
  obtain ⟨nodes', u, left, hparse', -, hphp, hstand, -, hlegal⟩ := legal_iff_of_compile hcompile
  obtain rfl := Except.ok.inj (hparse.symm.trans hparse')
  refine ⟨compiled, hcompile, hmapped, u, hphp, hstand, hlegal.mpr fun _ => ?_⟩
  rw [hnames]
  exact List.forall_mem_singleton.mpr (by decide)

/-- A loop that is mapped, with one name for its two variables. -/
def sameNamesTemplate : String := "@each($us as $k => $k)\x7b\x7b $k \x7d\x7d@endeach"

/-- **A compiled template can have a header that PHP refuses**: a function with one name for its
two parameters. -/
theorem exists_header_not_legal :
    ∃ compiled, compile sameNamesTemplate defaultNamespace defaultIndent = .ok compiled ∧
      ∃ u : RenderUnit, compiled.php = u.print defaultIndent ∧ StandIn u.headers compiled.php ∧
        ∃ header ∈ u.headers, ¬ header.Legal := by
  obtain ⟨compiled, nodes, hcompile, hmapped, hparse, hnames⟩ :
      ∃ compiled nodes, compile sameNamesTemplate defaultNamespace defaultIndent = .ok compiled ∧
        compiled.strategy = .mapping ∧ parse sameNamesTemplate = .ok nodes ∧
        outerNames nodes = [["k", "k"]] :=
    exists_mapping (by decide +kernel) (by decide +kernel)
  obtain ⟨nodes', u, left, hparse', hrun, hphp⟩ := exists_run_of_compile hcompile
  obtain rfl := Except.ok.inj (hparse.symm.trans hparse')
  have hheaders := gives_unitOf_headers defaultNamespace (withCalls nodes) _ _ _ hrun
  have hnot : ¬ ∀ header ∈ u.headers, header.Legal := by
    rw [hheaders.legal_iff, outerNames_withCalls, hnames]
    exact fun hparams => absurd (hparams hmapped _ List.mem_cons_self) (by decide)
  refine ⟨compiled, hcompile, u, hphp, hphp ▸ u.standIn_print defaultIndent, ?_⟩
  simpa using hnot

end ViewCompiler.Compile
