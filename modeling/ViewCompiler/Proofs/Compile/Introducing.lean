import ViewCompiler.Compile.Unit
import ViewCompiler.Proofs.Compile.Emitting
import ViewCompiler.Proofs.Template.Forms
import ViewCompiler.Proofs.Template.Introducing

/-!
# The local variables of a unit

Names are taken while a tree is deduplicated and again for every slot while its component is
compiled. `Introduces` follows both: the local variables in the code that a computation gives are
those that were there and one for each name that it takes. So the local variables of a unit, those
of its loops and of the closures in it included, are bound to the calls for which names were taken
from the start (`introduces_unitOf`).
-/

namespace ViewCompiler.Php

open Template (Binding)

/-! ## Local variables in code -/

mutual

/-- The local variables in an expression: those of the closures in it, at any depth. -/
def Expr.allLocals : Expr → List Binding
  | .concat parts => exprsLocals parts
  | .component _ _ slots content => argumentsLocals slots ++ contentLocals content
  | _ => []

/-- The local variables in expressions. -/
def exprsLocals : List Expr → List Binding
  | [] => []
  | value :: values => value.allLocals ++ exprsLocals values

/-- The local variables in the values of named slots. -/
def argumentsLocals : List SlotArgument → List Binding
  | [] => []
  | ⟨_, value⟩ :: slots => value.allLocals ++ argumentsLocals slots

/-- The local variables in the value of a default slot. -/
def contentLocals : Option SlotCode → List Binding
  | none => []
  | some value => value.allLocals

/-- The local variables in the value of a slot: those ahead of its body and those in it. -/
def SlotCode.allLocals : SlotCode → List Binding
  | .literal _ => []
  | .expression value => value.allLocals
  | .statements _ locals body => locals ++ statementsLocals body
  | .buffered _ locals body => locals ++ markupLocals body

/-- The local variables in a statement: those of loops and those in expressions. -/
def Stmt.allLocals : Stmt → List Binding
  | .append value => value.allLocals
  | .conditional branches => statementBranchesLocals branches
  | .loop _ locals body => locals ++ statementsLocals body
  | .existence _ body => statementsLocals body
  | _ => []

/-- The local variables in statements. -/
def statementsLocals : List Stmt → List Binding
  | [] => []
  | statement :: statements => statement.allLocals ++ statementsLocals statements

/-- The local variables in branches of statements. -/
def statementBranchesLocals : List StmtBranch → List Binding
  | [] => []
  | ⟨_, body⟩ :: branches => statementsLocals body ++ statementBranchesLocals branches

/-- The local variables in a part of markup: those of loops and those in expressions. -/
def Markup.allLocals : Markup → List Binding
  | .echo value => value.allLocals
  | .conditional branches => markupBranchesLocals branches
  | .loop _ locals body => locals ++ markupLocals body
  | .existence _ body => markupLocals body
  | _ => []

/-- The local variables in markup. -/
def markupLocals : List Markup → List Binding
  | [] => []
  | part :: parts => part.allLocals ++ markupLocals parts

/-- The local variables in branches of markup. -/
def markupBranchesLocals : List MarkupBranch → List Binding
  | [] => []
  | ⟨_, body⟩ :: branches => markupLocals body ++ markupBranchesLocals branches
end

/-- The local variables in the body of a unit. -/
def UnitBody.allLocals : UnitBody → List Binding
  | .value expression => expression.allLocals
  | .mapping map => map.locals ++ map.value.allLocals
  | .buffered body => markupLocals body

/-- All local variables of a unit: those of its prologue, of its loops, and of the closures in it.
-/
def RenderUnit.allLocals (u : RenderUnit) : List Binding := u.locals ++ u.body.allLocals

/-- The local variables of expressions are those of each, in order. -/
theorem exprsLocals_eq_flatMap (values : List Expr) :
    exprsLocals values = values.flatMap Expr.allLocals := by
  induction values with
  | nil => rfl
  | cons value values ih => rw [exprsLocals, ih, List.flatMap_cons]

/-- The local variables of named slots are those of their values, in order. -/
theorem argumentsLocals_eq_flatMap (slots : List SlotArgument) :
    argumentsLocals slots = slots.flatMap fun s => s.value.allLocals := by
  induction slots with
  | nil => rfl
  | cons s slots ih =>
    obtain ⟨name, value⟩ := s
    rw [argumentsLocals, ih, List.flatMap_cons]

end ViewCompiler.Php

namespace ViewCompiler.Compile

open Php
open Template

/-! ## Computations that introduce local variables -/

section Introduces

variable {α β γ : Type} {found : α → List Binding} {found' : β → List Binding}
  {found'' : γ → List Binding} {before before' : List Binding}

/-- Names are taken for calls, and what the computation gives binds each of them once, beside the
local variables that there were before. -/
def Introduces (found : α → List Binding) (before : List Binding) (m : Emit α) : Prop :=
  ∀ taken a left, m.run taken = .ok (a, left) →
    ∃ hoists, Takes taken hoists left ∧ Adds before hoists (found a)

/-- A value that has just the local variables of before introduces none. -/
theorem introduces_pure {a : α} (h : found a = before) : Introduces found before (pure a) := by
  intro taken a' left hrun
  cases hrun
  exact ⟨[], .nil taken, h ▸ .refl before⟩

/-- What fails introduces nothing. -/
theorem introduces_throw (e : EmitError) : Introduces found before (throw e : Emit α) := by
  intro taken a left hrun
  cases hrun

/-- One computation after the other, which has the local variables that the first gives. -/
theorem Introduces.bind {m : Emit α} {f : α → Emit β} {P : α → Prop}
    (hm : Introduces found before m) (hgives : Gives m P)
    (hf : ∀ a, P a → Introduces found' (found a) (f a)) : Introduces found' before (m >>= f) := by
  intro taken b left hrun
  obtain ⟨a, middle, ha, hb⟩ := exists_of_run_bind hrun
  obtain ⟨hoists, htakes, hadds⟩ := hm _ _ _ ha
  obtain ⟨hoists', htakes', hadds'⟩ := hf a (hgives _ _ _ ha) _ _ _ hb
  refine ⟨hoists ++ hoists', htakes.append htakes', hadds'.trans ?_⟩
  rw [List.map_append, ← List.append_assoc]
  exact hadds.append_right _

/-- What the computation gives is put behind local variables that are there already. -/
theorem Introduces.behind {m : Emit α} {f : α → β} {first : List Binding}
    (hm : Introduces found before m) (hf : ∀ a, found' (f a) = first ++ found a) :
    Introduces found' (first ++ before) (m >>= fun a => pure (f a)) := by
  intro taken b left hrun
  obtain ⟨a, middle, ha, hb⟩ := exists_of_run_bind hrun
  cases hb
  obtain ⟨hoists, htakes, hadds⟩ := hm _ _ _ ha
  refine ⟨hoists, htakes, ?_⟩
  rw [hf]
  exact (Adds.refl first).append hadds

/-- What is made from code and has the same local variables introduces the same. -/
theorem Introduces.map {m : Emit α} {f : α → β} (hm : Introduces found before m)
    (hf : ∀ a, found' (f a) = found a) :
    Introduces found' before (m >>= fun a => pure (f a)) := by
  have hbehind : Introduces found' ([] ++ before) (m >>= fun a => pure (f a)) := hm.behind hf
  exact hbehind

/-- Two computations whose results are put together. -/
theorem Introduces.both {m : Emit α} {m' : Emit β} {f : α → β → γ}
    (hm : Introduces found before m) (hm' : Introduces found' before' m')
    (hf : ∀ a b, found'' (f a b) = found a ++ found' b) :
    Introduces found'' (before ++ before') (m >>= fun a => m' >>= fun b => pure (f a b)) := by
  intro taken c left hrun
  obtain ⟨a, middle, ha, hrun'⟩ := exists_of_run_bind hrun
  obtain ⟨b, between, hb, hc⟩ := exists_of_run_bind hrun'
  cases hc
  obtain ⟨hoists, htakes, hadds⟩ := hm _ _ _ ha
  obtain ⟨hoists', htakes', hadds'⟩ := hm' _ _ _ hb
  refine ⟨hoists ++ hoists', htakes.append htakes', ?_⟩
  rw [hf]
  exact hadds.append hadds'

/-- The parts of a list introduce together what each of them introduces. -/
theorem introduces_mapM {f : α → Emit β} {as : List α}
    (h : ∀ a ∈ as, Introduces found' (found a) (f a)) :
    Introduces (fun bs : List β => bs.flatMap found') (as.flatMap found) (as.mapM f) := by
  induction as with
  | nil => exact introduces_pure rfl
  | cons a as ih =>
    rw [List.forall_mem_cons] at h
    rw [List.mapM_cons]
    exact h.1.both (ih h.2) fun _ _ => rfl

/-- Deduplication introduces the local variables of the tree and those ahead of it. -/
theorem introduces_dedup {nodes : List Node} (h : locals nodes = []) :
    Introduces (fun result : List Node × List Binding => result.2 ++ locals result.1) []
      (taking (dedup nodes)) := by
  intro taken result left hrun
  have hdedup := exists_takes_dedup h taken
  rwa [eq_of_run_taking hrun] at hdedup

end Introduces

/-- Deduplication leaves slots without local variables, as they were. -/
theorem gives_dedup {nodes : List Node} (h : slotLocals nodes = []) :
    Gives (taking (dedup nodes)) fun result => slotLocals result.1 = [] := by
  intro taken result left hrun
  have hdeduped := slotLocals_dedup nodes taken
  rwa [eq_of_run_taking hrun, h] at hdeduped

/-! ## Forms -/

/-- Slots without local variables introduce their local variables. -/
def IntroducesInSlots (slot : SlotCompiler) : Prop :=
  ∀ content, locals content = [] → slotLocals content = [] →
    Introduces SlotCode.allLocals [] (slot content)

section Forms

variable {slot : SlotCompiler} {path : String}

/-- A component introduces the local variables of its slots. -/
theorem introduces_component (hslot : IntroducesInSlots slot) {tag : String}
    {attributes : List Attribute} {content : List Node} {slots : List NamedSlot}
    (h : (Node.component tag attributes content slots).slotLocals = []) :
    Introduces Expr.allLocals [] (component slot path tag attributes content slots) := by
  rw [Node.slotLocals, List.append_eq_nil_iff, List.append_eq_nil_iff, slotsLocals_eq_nil_iff] at h
  obtain ⟨⟨hcontent, hinner⟩, hslots⟩ := h
  have hnamed : Introduces argumentsLocals [] (slotArguments slot slots) := by
    have hall : Introduces (fun as : List SlotArgument => as.flatMap fun a => a.value.allLocals)
        (slots.flatMap fun _ => []) (slotArguments slot slots) :=
      introduces_mapM fun s hs => (hslot s.body (hslots s hs).1 (hslots s hs).2).map fun _ => rfl
    rw [List.flatMap_eq_nil_iff.mpr fun _ _ => rfl] at hall
    rwa [funext argumentsLocals_eq_flatMap]
  have hdefault : Introduces contentLocals [] (contentCode slot content) := by
    unfold contentCode
    split
    · exact introduces_pure rfl
    · rename_i node nodes htrim
      refine (hslot _ ?_ ?_).map fun _ => rfl
      · rw [← htrim, locals_trimSlot, hcontent]
      · rw [← htrim, slotLocals_trimSlot, hinner]
  exact hnamed.both hdefault fun _ _ => rfl

/-- The value of a node introduces the local variables of the closures in it. -/
theorem introduces_interpolation (hslot : IntroducesInSlots slot) {node : Node}
    (h : node.slotLocals = []) :
    Introduces Expr.allLocals node.locals (interpolation slot path node) := by
  match node with
  | .text _ | .host _ true => exact introduces_pure rfl
  | .echo expression escaped =>
    refine introduces_pure ?_
    unfold echoExpression
    split
    · rfl
    · split <;> rfl
  | .component .. => exact introduces_component hslot h
  | .host _ false | .comment _ | .conditional _ | .loop .. | .existence .. | .flag .. =>
    exact introduces_throw _

/-- Joining values with dots adds no local variable. -/
theorem allLocals_joinParts (parts : List Expr) :
    (joinParts parts).allLocals = parts.flatMap Expr.allLocals := by
  unfold joinParts
  split
  · rfl
  · rw [List.flatMap_cons, List.flatMap_nil, List.append_nil]
  · rw [Expr.allLocals, exprsLocals_eq_flatMap]

/-- Comments are left out of what they have nothing of. -/
theorem flatMap_content {α : Type} {f : Node → List α} (h : ∀ text, f (.comment text) = [])
    (nodes : List Node) : (content nodes).flatMap f = nodes.flatMap f := by
  induction nodes with
  | nil => rfl
  | cons node nodes ih =>
    match node with
    | .comment text => exact ih.trans (congrArg (· ++ _) (h text)).symm
    | .text _ | .echo .. | .host .. | .conditional _ | .loop .. | .existence .. | .flag ..
    | .component .. => exact congrArg (_ ++ ·) ih

/-- The value of a tree introduces the local variables of the closures in it. -/
theorem introduces_expression (hslot : IntroducesInSlots slot) {nodes : List Node}
    (h : slotLocals nodes = []) :
    Introduces Expr.allLocals (locals nodes) (expression slot path nodes) := by
  rw [slotLocals_eq_flatMap, List.flatMap_eq_nil_iff] at h
  rw [locals_eq_flatMap, ← flatMap_content fun _ => rfl]
  exact (introduces_mapM fun node hnode =>
    introduces_interpolation hslot (h node (List.mem_of_mem_filter hnode))).map allLocals_joinParts

mutual

/-- The markup of a node has the node's local variables and introduces those of closures. -/
theorem introduces_markupOf (hslot : IntroducesInSlots slot) (node : Node)
    (h : node.slotLocals = []) :
    Introduces Markup.allLocals node.locals (markupOf slot path node) := by
  match node with
  | .text _ | .comment _ | .flag .. | .host _ true | .host _ false => exact introduces_pure rfl
  | .echo expression escaped =>
    refine introduces_pure ?_
    unfold echoMarkup
    split
    · rfl
    · split <;> rfl
  | .component .. => exact (introduces_component hslot h).map fun _ => rfl
  | .conditional branches => exact (introduces_branchesMarkup hslot branches h).map fun _ => rfl
  | .loop head bindings body =>
    rw [Node.locals_loop]
    exact (introduces_markup hslot body h).behind fun _ => rfl
  | .existence expression body => exact (introduces_markup hslot body h).map fun _ => rfl

/-- Markup has the local variables of its tree and those of the closures in it. -/
theorem introduces_markup (hslot : IntroducesInSlots slot) (nodes : List Node)
    (h : slotLocals nodes = []) :
    Introduces markupLocals (locals nodes) (markup slot path nodes) := by
  match nodes with
  | [] => exact introduces_pure rfl
  | node :: nodes =>
    obtain ⟨hnode, hnodes⟩ := List.append_eq_nil_iff.mp h
    rw [locals_cons]
    exact (introduces_markupOf hslot node hnode).both (introduces_markup hslot nodes hnodes)
      fun _ _ => rfl

/-- The markup of branches has their local variables and introduces those of closures. -/
theorem introduces_branchesMarkup (hslot : IntroducesInSlots slot) (branches : List Branch)
    (h : branchesSlotLocals branches = []) :
    Introduces markupBranchesLocals (branchesLocals branches)
      (branchesMarkup slot path branches) := by
  match branches with
  | [] => exact introduces_pure rfl
  | ⟨condition, body⟩ :: branches =>
    obtain ⟨hbody, hbranches⟩ := List.append_eq_nil_iff.mp h
    rw [branchesLocals_cons]
    exact (introduces_markup hslot body hbody).both
      (introduces_branchesMarkup hslot branches hbranches) fun _ _ => rfl
end

mutual

/-- The statement of a node has the node's local variables and introduces those of closures. -/
theorem introduces_statementOf (hslot : IntroducesInSlots slot) (node : Node)
    (h : node.slotLocals = []) :
    Introduces Stmt.allLocals node.locals (statementOf slot path node) := by
  match node with
  | .comment _ | .host _ false | .flag .. => exact introduces_pure rfl
  | .text _ | .echo .. | .host _ true | .component .. =>
    exact (introduces_interpolation hslot h).map fun _ => rfl
  | .conditional branches =>
    exact (introduces_branchesStatements hslot branches h).map fun _ => rfl
  | .loop head bindings body =>
    rw [Node.locals_loop]
    exact (introduces_statements hslot body h).behind fun _ => rfl
  | .existence expression body => exact (introduces_statements hslot body h).map fun _ => rfl

/-- Statements have the local variables of their tree and those of the closures in it. -/
theorem introduces_statements (hslot : IntroducesInSlots slot) (nodes : List Node)
    (h : slotLocals nodes = []) :
    Introduces statementsLocals (locals nodes) (statements slot path nodes) := by
  match nodes with
  | [] => exact introduces_pure rfl
  | node :: nodes =>
    obtain ⟨hnode, hnodes⟩ := List.append_eq_nil_iff.mp h
    rw [locals_cons]
    exact (introduces_statementOf hslot node hnode).both (introduces_statements hslot nodes hnodes)
      fun _ _ => rfl

/-- The statements of branches have their local variables and introduce those of closures. -/
theorem introduces_branchesStatements (hslot : IntroducesInSlots slot) (branches : List Branch)
    (h : branchesSlotLocals branches = []) :
    Introduces statementBranchesLocals (branchesLocals branches)
      (branchesStatements slot path branches) := by
  match branches with
  | [] => exact introduces_pure rfl
  | ⟨condition, body⟩ :: branches =>
    obtain ⟨hbody, hbranches⟩ := List.append_eq_nil_iff.mp h
    rw [branchesLocals_cons]
    exact (introduces_statements hslot body hbody).both
      (introduces_branchesStatements hslot branches hbranches) fun _ _ => rfl
end

end Forms

/-! ## Slots and units -/

/-- **The code of a slot binds each name that is taken for it**, slots in slots included. -/
theorem introducesInSlots_slotCode (path : String) (nesting : Nat) :
    IntroducesInSlots (slotCode path nesting) := by
  induction nesting with
  | zero => exact fun _ _ _ => introduces_throw _
  | succ nesting ih =>
    intro nodes hlocals hslots
    rw [← locals_trimSlot] at hlocals
    rw [← slotLocals_trimSlot] at hslots
    have hdedup := introduces_dedup hlocals
    have hbare := gives_dedup hslots
    rw [slotCode]
    split
    · exact introduces_pure rfl
    · have hvalue : Introduces Expr.allLocals (locals (visible false (trimSlot nodes)))
          (expression (slotCode path nesting) path (visible false (trimSlot nodes))) :=
        introduces_expression ih ((locals_visible false (trimSlot nodes)).2.trans hslots)
      rw [(locals_visible false (trimSlot nodes)).1, hlocals] at hvalue
      exact hvalue.map fun _ => rfl
    · refine hdedup.bind hbare fun result hresult => ?_
      rw [← (locals_visible false result.1).1]
      exact (introduces_statements ih _ ((locals_visible false result.1).2.trans hresult)).behind
        fun _ => rfl
    · refine hdedup.bind hbare fun result hresult => ?_
      exact (introduces_markup ih _ hresult).behind fun _ => rfl

/-- A tree with a loop to map is the loop and text around it, so what neither text nor comments
have is the loop's. -/
theorem flatMap_of_mapCandidate? {α : Type} {nodes : List Node} {candidate : MapCandidate}
    (h : mapCandidate? nodes = some candidate) {f : Node → List α}
    (htext : ∀ text, f (.text text) = []) (hcomment : ∀ text, f (.comment text) = []) :
    nodes.flatMap f = f (.loop candidate.head candidate.bindings candidate.body) := by
  have haround : ∀ found : Option String, (found.toList.map Node.text).flatMap f = [] := by
    intro found
    rw [List.flatMap_map]
    exact List.flatMap_eq_nil_iff.mpr fun text _ => htext text
  rw [← flatMap_content hcomment, (content_of_mapCandidate? h).1, List.flatMap_append,
    List.flatMap_cons, haround, haround, List.nil_append, List.append_nil]

/-- A loop that is mapped has its own local variables ahead of those in its value. -/
theorem introduces_loopMap {slot : SlotCompiler} {path : String} (hslot : IntroducesInSlots slot)
    {candidate : MapCandidate} (h : slotLocals candidate.body = []) :
    Introduces (fun map : LoopMap => map.locals ++ map.value.allLocals)
      (candidate.bindings ++ locals candidate.body) (loopMap slot path candidate) :=
  (introduces_expression hslot h).behind fun _ => rfl

/-- The body of a unit has the local variables of the tree and introduces those of closures. -/
theorem introduces_unitBody (path : String) (strategy : Strategy) {nodes : List Node}
    (h : slotLocals nodes = []) :
    Introduces UnitBody.allLocals (locals nodes) (unitBody path strategy nodes) := by
  have hslot := introducesInSlots_slotCode path (slotDepth nodes)
  obtain ⟨hlocals, hslots⟩ := locals_visible false nodes
  have hvisible := hslots.trans h
  have hvalue : Introduces UnitBody.allLocals (locals nodes) (do
      return .value (← expression (slotsOf path nodes) path (visible false nodes))) := by
    rw [← hlocals]
    exact (introduces_expression hslot hvisible).map fun _ => rfl
  unfold unitBody
  match strategy with
  | .direct | .concatenation => exact hvalue
  | .buffered => exact (introduces_markup hslot nodes h).map fun _ => rfl
  | .mapping =>
    dsimp only
    split
    · rename_i candidate hcandidate
      have hbody : slotLocals candidate.body = [] := by
        rw [slotLocals_eq_flatMap,
          flatMap_of_mapCandidate? hcandidate (fun _ => rfl) fun _ => rfl] at hvisible
        exact hvisible
      rw [← hlocals, locals_eq_flatMap,
        flatMap_of_mapCandidate? hcandidate (fun _ => rfl) fun _ => rfl, Node.locals_loop]
      exact (introduces_loopMap hslot hbody).map fun _ => rfl
    · exact introduces_throw _

/-- **A unit binds each name that is taken for it**, in its prologue, in a loop or in a closure. -/
theorem introduces_unitOf (path : String) {nodes : List Node} (hlocals : locals nodes = [])
    (hslots : slotLocals nodes = []) :
    Introduces (fun result : RenderUnit × Strategy => result.1.allLocals) []
      (unitOf path nodes) := by
  refine (introduces_dedup hlocals).bind (gives_dedup hslots) fun result hresult => ?_
  exact (introduces_unitBody path _ hresult).behind fun _ => rfl

end ViewCompiler.Compile
