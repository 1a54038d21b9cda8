import ViewCompiler.Compile.Slot
import ViewCompiler.Proofs.Compile.Emitting
import ViewCompiler.Proofs.Php.Reads
import ViewCompiler.Proofs.Template.Reads
import ViewCompiler.Proofs.Template.Sharing

/-!
# What compiled code reads

The value that is compiled for a node reads the variables that are unbound in the node, and those
that are the same in every scope (`gives_interpolation`). So it prints the same in a closure that
captures the unbound variables.

Not every expression is written as it stands: blanks are trimmed and semicolons dropped
(`spellings`). What is written must mention no variable that the expression does not mention. It
can, since trimming removes more characters than separate the words of the host language: a
no-break space at the end of an expression is a character of a name there.
-/

namespace ViewCompiler.Template

open Compile (hostExpression)
open Expression (mentioned)

/-! ## Expressions that are written differently -/

mutual

/-- The expressions of a node that may be written differently, each with what is written; those in
slots are among them. -/
def Node.spellings : Node → List (String × String)
  | .echo expression _ =>
    if Node.isSlotEcho expression then [(expression, trimBlanks expression)] else []
  | .host code true => [(code, hostExpression code)]
  | .conditional branches => branchesSpellings branches
  | .loop _ _ body => spellings body
  | .existence _ body => spellings body
  | .component _ attributes content slots =>
    (attributes.filterMap Attribute.expression?).map (fun e => (e, trimBlanks e)) ++
      spellings content ++ slotsSpellings slots
  | _ => []

/-- The expressions of nodes that may be written differently. -/
def spellings : List Node → List (String × String)
  | [] => []
  | node :: nodes => node.spellings ++ spellings nodes

/-- The expressions of branches that may be written differently. -/
def branchesSpellings : List Branch → List (String × String)
  | [] => []
  | ⟨_, body⟩ :: branches => spellings body ++ branchesSpellings branches

/-- The expressions of named slots that may be written differently. -/
def slotsSpellings : List NamedSlot → List (String × String)
  | [] => []
  | ⟨_, body⟩ :: slots => spellings body ++ slotsSpellings slots
end

/-- What is written mentions no other variables. -/
def KeepsMentions (written : List (String × String)) : Prop :=
  ∀ p ∈ written, mentioned p.2 ⊆ mentioned p.1

/-- Spellings in two lists keep the mentions if those in each list do. -/
theorem KeepsMentions.of_append {written other : List (String × String)}
    (h : KeepsMentions (written ++ other)) : KeepsMentions written ∧ KeepsMentions other :=
  List.forall_mem_append.mp h

/-- Fewer spellings keep the mentions, too. -/
theorem KeepsMentions.mono {written fewer : List (String × String)} (h : KeepsMentions written)
    (hsub : fewer ⊆ written) : KeepsMentions fewer := fun p hp => h p (hsub hp)

/-! ## Parts of a tree -/

/-- The spellings in nodes are those in each, in order. -/
theorem spellings_eq_flatMap (nodes : List Node) :
    spellings nodes = nodes.flatMap Node.spellings := by
  induction nodes with
  | nil => rfl
  | cons node nodes ih => rw [spellings, ih, List.flatMap_cons]

/-- The spellings in named slots are those in each, in order. -/
theorem slotsSpellings_eq_flatMap (slots : List NamedSlot) :
    slotsSpellings slots = slots.flatMap fun s => spellings s.body := by
  induction slots with
  | nil => rfl
  | cons s slots ih =>
    obtain ⟨name, body⟩ := s
    rw [slotsSpellings, ih, List.flatMap_cons]

/-- The spellings in a node are among those of the tree. -/
theorem spellings_subset {nodes : List Node} {node : Node} (h : node ∈ nodes) :
    node.spellings ⊆ spellings nodes := by
  rw [spellings_eq_flatMap]
  exact fun p hp => List.mem_flatMap.mpr ⟨node, h, hp⟩

/-- Trimming the content of a slot changes no spelling. -/
theorem spellings_trimSlot (nodes : List Node) : spellings (trimSlot nodes) = spellings nodes := by
  rw [spellings_eq_flatMap, spellings_eq_flatMap, flatMap_trimSlot fun _ => rfl]

end ViewCompiler.Template

namespace ViewCompiler.Compile

open Template Php
open Expression (mentioned)

variable {machine : Machine} {names : List String} {slot : SlotCompiler} {path : String}

/-! ## Interpolations -/

/-- What is compiled for the content of a slot reads its unbound variables. -/
def ReadsContent (machine : Machine) (slot : SlotCompiler) : Prop :=
  ∀ content, KeepsMentions (spellings content) →
    Gives (slot content) fun code => code.Reads machine (reads [] content)

/-- A prop has the same value in stores that agree on what it is written with. -/
theorem argument_propValue {s s' : Store machine.Value} (hs : AgreeOn names s s') {a : Attribute}
    (h : ∀ e ∈ a.expression?, mentioned (trimBlanks e) ⊆ names) :
    (propValue a).argument machine s = (propValue a).argument machine s' := by
  obtain ⟨bound, name, value⟩ := a
  cases value with
  | none => rfl
  | some value =>
    cases bound with
    | false => rfl
    | true =>
      have heval : machine.eval (if trimBlanks value = "" then "null" else trimBlanks value) s =
          machine.eval (if trimBlanks value = "" then "null" else trimBlanks value) s' := by
        split
        · refine hs.eval_eq ?_
          rw [show mentioned "null" = [] by decide +kernel]
          exact List.nil_subset _
        · exact hs.eval_eq (h value rfl)
      exact congrArg (fun v => some (Sum.inr v)) heval

/-- The props of a component read the variables of its bound attributes. -/
theorem arguments_props {s s' : Store machine.Value} {attributes : List Attribute}
    (hkeeps : KeepsMentions
      ((attributes.filterMap Attribute.expression?).map fun e => (e, trimBlanks e)))
    (hs : AgreeOn ((attributes.filterMap Attribute.expression?).flatMap (unbound [])) s s') :
    ((props attributes).map fun p => (p.name, p.value.argument machine s)) =
      (props attributes).map fun p => (p.name, p.value.argument machine s') := by
  rw [props, List.map_map, List.map_map]
  refine List.map_congr_left fun a ha => congrArg (a.name, ·) (argument_propValue hs ?_)
  intro e he x hx
  have hmem : e ∈ attributes.filterMap Attribute.expression? := List.mem_filterMap.mpr ⟨a, ha, he⟩
  have hmentioned : x ∈ unbound [] e := by
    rw [unbound_nil]
    exact hkeeps _ (List.mem_map_of_mem hmem) hx
  exact List.mem_flatMap.mpr ⟨e, hmem, hmentioned⟩

/-- The values of named slots read what is read in the slots. -/
theorem gives_slotArguments (hslot : ReadsContent machine slot) {slots : List NamedSlot}
    (hkeeps : KeepsMentions (slotsSpellings slots)) :
    Gives (slotArguments slot slots) fun arguments => ∀ argument ∈ arguments,
      argument.value.Reads machine (slotsRead [] slots) := by
  rw [slotsSpellings_eq_flatMap] at hkeeps
  rw [slotsRead_eq_flatMap]
  refine gives_mapM fun s hs => ?_
  refine (hslot s.body (hkeeps.mono fun p hp => List.mem_flatMap.mpr ⟨s, hs, hp⟩)).bind
    fun code hcode => gives_pure ?_
  exact hcode.mono fun x hx => List.mem_flatMap.mpr ⟨s, hs, hx⟩

/-- The value of a default slot reads what is read in its content. -/
theorem gives_contentCode (hslot : ReadsContent machine slot) {content : List Node}
    (hkeeps : KeepsMentions (spellings content)) :
    Gives (contentCode slot content) fun value => ∀ code ∈ value,
      code.Reads machine (reads [] content) := by
  rw [← spellings_trimSlot] at hkeeps
  rw [← reads_trimSlot]
  unfold contentCode
  split
  · exact gives_pure fun _ h => absurd h (Option.not_mem_none _)
  · rename_i node nodes htrim
    rw [htrim] at hkeeps ⊢
    refine (hslot _ hkeeps).bind fun code hcode => gives_pure fun other hother => ?_
    obtain rfl := Option.some.inj hother
    exact hcode

/-- A component reads the unbound variables of its attributes and slots. -/
theorem gives_component (hslot : ReadsContent machine slot) {tag : String}
    {attributes : List Attribute} {content : List Node} {slots : List NamedSlot}
    (hkeeps : KeepsMentions (Node.component tag attributes content slots).spellings) :
    Gives (component slot path tag attributes content slots) fun value =>
      value.Reads machine ((Node.component tag attributes content slots).reads []) := by
  obtain ⟨hkeeps, hslots⟩ := hkeeps.of_append
  obtain ⟨hprops, hcontent⟩ := hkeeps.of_append
  refine (gives_slotArguments hslot hslots).bind fun arguments harguments =>
    (gives_contentCode hslot hcontent).bind fun value hvalue => gives_pure fun s s' hs => ?_
  have hs : AgreeOn ((attributes.filterMap Attribute.expression?).flatMap (unbound []) ++
      reads [] content ++ slotsRead [] slots) s s' := hs
  have hfirst := hs.mono (List.subset_append_left ..)
  rw [Expr.acts, Expr.acts, arguments_props hprops (hfirst.mono (List.subset_append_left ..)),
    slotYields_congr harguments (hs.mono (List.subset_append_right ..)),
    contentYield_congr hvalue (hfirst.mono (List.subset_append_right ..))]

/-- The value of a node reads the unbound variables of the node. -/
theorem gives_interpolation (hslot : ReadsContent machine slot) {node : Node}
    (hkeeps : KeepsMentions node.spellings) :
    Gives (interpolation slot path node) fun value => value.Reads machine (node.reads []) := by
  match node with
  | .text content => exact gives_pure fun _ _ _ => by rw [Expr.acts, Expr.acts]
  | .echo expression escaped =>
    refine gives_pure fun s s' hs => ?_
    have hs : AgreeOn (mentioned expression) s s' := by
      rw [← unbound_nil]
      exact hs
    have heval := hs.eval_eq (List.Subset.refl _)
    unfold echoExpression
    split
    · rename_i hecho
      have hwritten :
          (expression, trimBlanks expression) ∈ (Node.echo expression escaped).spellings :=
        by simp [Node.spellings, hecho]
      have hmentioned := hkeeps _ hwritten
      rw [beq_iff_eq.mp hecho] at hmentioned
      have hname : slotName ∈ mentioned expression := hmentioned
        (show slotName ∈ mentioned "$slot" by decide +kernel)
      rw [Expr.acts, Expr.acts, hs slotName (.inl hname)]
    · split
      · rw [Expr.acts, Expr.acts, heval]
      · rw [Expr.acts, Expr.acts, heval]
  | .host code true =>
    refine gives_pure fun s s' hs => ?_
    have hs : AgreeOn (mentioned code) s s' := by
      rw [← unbound_nil]
      exact hs
    rw [Expr.acts, Expr.acts, hs.eval_eq (hkeeps (code, hostExpression code) List.mem_cons_self)]
  | .component tag attributes content slots => exact gives_component hslot hkeeps
  | .host _ false | .comment _ | .conditional _ | .loop .. | .existence .. | .flag .. =>
    exact gives_throw _

/-- The value of a node that is printed reads the unbound variables of the tree. -/
theorem gives_visible (hslot : ReadsContent machine slot) {nodes : List Node}
    (hkeeps : KeepsMentions (spellings nodes)) {afterTag : Bool} {node : Node}
    (h : node ∈ visible afterTag nodes) :
    Gives (interpolation slot path node) fun value => value.Reads machine (reads [] nodes) := by
  cases hnode : node.isInterpolation with
  | true =>
    have hmem := mem_of_mem_visible hnode h
    intro taken value taken' hrun
    exact (gives_interpolation hslot (hkeeps.mono (spellings_subset hmem)) _ _ _ hrun).mono
      (reads_subset [] hmem)
  | false =>
    match node with
    | .text content => exact gives_pure fun _ _ _ => by rw [Expr.acts, Expr.acts]
    | .host _ false | .comment _ | .conditional _ | .loop .. | .existence .. | .flag .. =>
      exact gives_throw _

/-- One part is printed like the concatenation of it. -/
theorem acts_joinParts (values : List Expr) (s : Store machine.Value) :
    (joinParts values).acts machine s = actsOfAll machine s values := by
  unfold joinParts
  split
  · simp only [Expr.acts, actsOfAll, List.append_nil]
  · simp only [actsOfAll, List.append_nil]
  · rw [Expr.acts]

/-- The expression of a tree that is printed reads the unbound variables of the tree. -/
theorem gives_expression (hslot : ReadsContent machine slot) {nodes : List Node}
    (hkeeps : KeepsMentions (spellings nodes)) (afterTag : Bool) :
    Gives (expression slot path (visible afterTag nodes)) fun value =>
      value.Reads machine (reads [] nodes) := by
  refine (gives_mapM fun node hnode =>
    gives_visible hslot hkeeps (List.mem_of_mem_filter hnode)).bind fun values hvalues => ?_
  refine gives_pure fun s s' hs => ?_
  rw [acts_joinParts, acts_joinParts, actsOfAll_congr hvalues hs]

/-! ## Slots -/

/-- Captured are the variables that are read unbound, except those that cannot be captured. -/
theorem mem_captured {nodes : List Node} {bound : List String} {x : String} :
    x ∈ captured nodes bound ↔ x ∈ reads bound nodes ∧ x ∉ uncapturable := by
  simp [captured, mem_freeVariables]

/-- **What is compiled for the content of a slot reads its unbound variables**, in whatever
form. -/
theorem readsContent_slotCode (machine : Machine) (path : String) (nesting : Nat) :
    ReadsContent machine (slotCode path nesting) := by
  induction nesting with
  | zero => exact fun _ _ => gives_throw _
  | succ nesting ih =>
    intro content hkeeps
    rw [← spellings_trimSlot] at hkeeps
    rw [← reads_trimSlot, slotCode]
    have hcaptured : captured (trimSlot content) [] ⊆ reads [] (trimSlot content) := fun x hx =>
      (mem_captured.mp hx).1
    split
    · exact gives_pure fun _ _ _ => by rw [SlotCode.yield, SlotCode.yield]
    · refine (gives_expression ih hkeeps false).bind fun value hvalue => ?_
      exact gives_pure fun s s' hs => by rw [SlotCode.yield, SlotCode.yield, hvalue s s' hs]
    -- a closure is called with the same variables, so what is in it does not matter
    · refine (gives_any _).bind fun _ _ => (gives_any _).bind fun body _ => gives_pure ?_
      exact fun s s' hs => by rw [SlotCode.yield, SlotCode.yield, hs.closed_eq hcaptured]
    · refine (gives_any _).bind fun _ _ => (gives_any _).bind fun body _ => gives_pure ?_
      exact fun s s' hs => by rw [SlotCode.yield, SlotCode.yield, hs.closed_eq hcaptured]

end ViewCompiler.Compile
