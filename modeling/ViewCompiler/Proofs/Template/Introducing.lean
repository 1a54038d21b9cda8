import ViewCompiler.Proofs.Keyed
import ViewCompiler.Proofs.Template.DedupReads
import ViewCompiler.Proofs.Template.Outline
import ViewCompiler.Proofs.Template.Reading
import ViewCompiler.Proofs.Template.Reads
import ViewCompiler.Template.Access

/-!
# The local variables that deduplication introduces

`Takes` says how names are taken for calls: one after the other, each the first free candidate for
its call at that moment. Deduplication takes names in this way and binds each of them once, to its
call: the local variables of the tree's loops are afterwards those before and one for each name
that was taken, in some order (`exists_takes_dedup`). A later round does not touch the value of a
local variable, since it is a call on a variable of the loop around it.
-/

namespace ViewCompiler.Template

open Expression

/-! ## Taking names -/

/-- Names are taken for calls, one after the other: each is the first candidate for its call that
is free at that moment. -/
inductive Takes : Names → List Hoist → Names → Prop where
  | nil (taken : Names) : Takes taken [] taken
  | cons {taken left : Names} {h : Hoist} {hoists : List Hoist} (hcall : h.call.Readable)
      (hfree : IsFirstFree taken (hoistBase h.call) h.name)
      (hrest : Takes (taken ++ [h.name]) hoists left) : Takes taken (h :: hoists) left

namespace Takes

variable {taken middle left : Names} {hoists hoists' : List Hoist}

/-- Names taken for some calls and then for others are taken for all of them. -/
theorem append (h : Takes taken hoists middle) (h' : Takes middle hoists' left) :
    Takes taken (hoists ++ hoists') left := by
  induction h with
  | nil => exact h'
  | cons hcall hfree _ ih => exact .cons hcall hfree (ih h')

/-- What is taken at the end are the names taken at first and those of the hoists. -/
theorem left_eq (h : Takes taken hoists left) : left = taken ++ hoists.map Hoist.name := by
  induction h with
  | nil => exact (List.append_nil _).symm
  | cons _ _ _ ih => rw [ih, List.append_assoc, List.map_cons, List.singleton_append]

/-- Names that are taken are different from each other. -/
theorem nodup (h : Takes taken hoists left) (htaken : taken.Nodup) : left.Nodup := by
  induction h with
  | nil => exact htaken
  | cons _ hfree _ ih =>
    obtain ⟨-, -, -, hnew, -⟩ := hfree
    refine ih (List.nodup_append.mpr ⟨htaken, List.nodup_singleton _, fun x hx y hy => ?_⟩)
    rintro rfl
    exact hnew (List.mem_singleton.mp hy ▸ hx)

/-- A name that is taken is a candidate for its call, and so were all names that are tried before
it: they are taken, too. -/
theorem exists_candidate (h : Takes taken hoists left) :
    ∀ k ∈ hoists, k.call.Readable ∧ ∃ n, k.name = candidate (hoistBase k.call) n ∧
      ∀ m ≤ n, candidate (hoistBase k.call) m ∈ left := by
  induction h with
  | nil => exact fun _ hk => absurd hk List.not_mem_nil
  | @cons taken left k hoists hcall hfree hrest ih =>
    obtain ⟨n, -, hn, -, hbefore⟩ := hfree
    refine List.forall_mem_cons.mpr ⟨⟨hcall, n, hn, fun m hm => ?_⟩, ih⟩
    rw [hrest.left_eq]
    refine List.mem_append_left _ ?_
    rcases Nat.lt_or_eq_of_le hm with hlt | rfl
    · exact List.mem_append_left _ (hbefore m hlt)
    · exact List.mem_append_right _ (List.mem_singleton.mpr hn.symm)

end Takes

/-- Naming readable calls takes a name for each. -/
theorem takes_nameCalls (taken : Names) {calls : List DottedPath}
    (h : ∀ a ∈ calls, a.Readable) :
    Takes taken (nameCalls taken calls).1 (nameCalls taken calls).2 := by
  induction calls generalizing taken with
  | nil => exact .nil taken
  | cons call calls ih =>
    rw [List.forall_mem_cons] at h
    exact .cons h.1 (isFirstFree_fresh taken (hoistBase call)) (ih _ h.2)

/-- **A round takes a name for each call that it binds.** -/
theorem takes_roundHoists (wanted : Wanted) (nodes : List Node) (taken : Names) :
    Takes taken (roundHoists wanted nodes taken) (hoistRepeated wanted nodes taken).2.2 := by
  have hcalls : ∀ a ∈ repeated (wantedCalls wanted nodes), a.Readable := fun a ha =>
    readable_of_mem_calls (List.count_pos_iff.mp (Nat.lt_of_succ_lt (of_mem_repeated ha).1))
  have htakes := takes_nameCalls taken hcalls
  rw [hoistRepeated_eq]
  rwa [htakes.left_eq] at htakes

/-! ## The local variables of a tree -/

mutual

/-- The local variables of the loops in a node, outside of slots, each with the variables that its
loop assigns. -/
def Node.loopLocals : Node → List (List String × Binding)
  | .conditional branches => branchesLoopLocals branches
  | .loop head bindings body => bindings.map (head.names, ·) ++ loopLocals body
  | .existence _ body => loopLocals body
  | _ => []

/-- The local variables of the loops in nodes, outside of slots. -/
def loopLocals : List Node → List (List String × Binding)
  | [] => []
  | node :: nodes => node.loopLocals ++ loopLocals nodes

/-- The local variables of the loops in branches, outside of slots. -/
def branchesLoopLocals : List Branch → List (List String × Binding)
  | [] => []
  | ⟨_, body⟩ :: branches => loopLocals body ++ branchesLoopLocals branches
end

/-- The local variables of the loops in a node, outside of slots, in order. -/
def Node.locals (node : Node) : List Binding := node.loopLocals.map (·.2)

/-- The local variables of the loops in nodes, outside of slots, in order. -/
def locals (nodes : List Node) : List Binding := (loopLocals nodes).map (·.2)

/-- The local variables of the loops in branches, outside of slots, in order. -/
def branchesLocals (branches : List Branch) : List Binding :=
  (branchesLoopLocals branches).map (·.2)

/-- No nodes have no local variables. -/
@[simp] theorem locals_nil : locals [] = [] := rfl

/-- The local variables of a list are those of its first node, then those of the rest. -/
@[simp] theorem locals_cons (node : Node) (nodes : List Node) :
    locals (node :: nodes) = node.locals ++ locals nodes := List.map_append

/-- No branches have no local variables. -/
@[simp] theorem branchesLocals_nil : branchesLocals [] = [] := rfl

/-- The local variables of branches are those of the first body, then those of the rest. -/
@[simp] theorem branchesLocals_cons (condition : Option String) (body : List Node)
    (branches : List Branch) :
    branchesLocals (⟨condition, body⟩ :: branches) = locals body ++ branchesLocals branches :=
  List.map_append

/-- A loop has its own local variables and those of its body. -/
@[simp] theorem Node.locals_loop (head : LoopHead) (bindings : List Binding) (body : List Node) :
    (Node.loop head bindings body).locals = bindings ++ Template.locals body := by
  rw [Node.locals, Node.loopLocals, List.map_append, List.map_map]
  exact congrArg (· ++ _) (List.map_id bindings)

/-- A conditional has the local variables of its branches. -/
@[simp] theorem Node.locals_conditional (branches : List Branch) :
    (Node.conditional branches).locals = branchesLocals branches := rfl

/-- An existence check has the local variables of its body. -/
@[simp] theorem Node.locals_existence (expression : String) (body : List Node) :
    (Node.existence expression body).locals = Template.locals body := rfl

/-- The local variables of a list are those of its nodes. -/
theorem locals_eq_flatMap (nodes : List Node) : locals nodes = nodes.flatMap Node.locals := by
  induction nodes with
  | nil => rfl
  | cons node nodes ih => rw [locals_cons, ih, List.flatMap_cons]

mutual

/-- The local variables of the loops in the slots of a node, slots in slots included. -/
def Node.slotLocals : Node → List Binding
  | .conditional branches => branchesSlotLocals branches
  | .loop _ _ body => slotLocals body
  | .existence _ body => slotLocals body
  | .component _ _ content slots =>
    locals content ++ slotLocals content ++ slotsLocals slots
  | _ => []

/-- The local variables of the loops in the slots of nodes. -/
def slotLocals : List Node → List Binding
  | [] => []
  | node :: nodes => node.slotLocals ++ slotLocals nodes

/-- The local variables of the loops in the slots of branches. -/
def branchesSlotLocals : List Branch → List Binding
  | [] => []
  | ⟨_, body⟩ :: branches => slotLocals body ++ branchesSlotLocals branches

/-- The local variables of the loops in named slots. -/
def slotsLocals : List NamedSlot → List Binding
  | [] => []
  | ⟨_, body⟩ :: slots => locals body ++ slotLocals body ++ slotsLocals slots
end

/-- The local variables in the slots of a list are those in the slots of its nodes. -/
theorem slotLocals_eq_flatMap (nodes : List Node) :
    slotLocals nodes = nodes.flatMap Node.slotLocals := by
  induction nodes with
  | nil => rfl
  | cons node nodes ih => rw [slotLocals, ih, List.flatMap_cons]

/-- Slots have no local variables exactly when no body of theirs has, nor a slot in it. -/
theorem slotsLocals_eq_nil_iff {slots : List NamedSlot} :
    slotsLocals slots = [] ↔ ∀ s ∈ slots, locals s.body = [] ∧ slotLocals s.body = [] := by
  induction slots with
  | nil => simp [slotsLocals]
  | cons s slots ih =>
    obtain ⟨name, body⟩ := s
    rw [slotsLocals, List.append_eq_nil_iff, List.append_eq_nil_iff, ih, List.forall_mem_cons]

/-! ### Trees as they are printed -/

/-- Trimming the content of a slot keeps its local variables. -/
theorem locals_trimSlot (nodes : List Node) : locals (trimSlot nodes) = locals nodes := by
  rw [locals_eq_flatMap, locals_eq_flatMap, flatMap_trimSlot fun _ => rfl]

/-- Trimming the content of a slot keeps the local variables of the slots in it. -/
theorem slotLocals_trimSlot (nodes : List Node) :
    slotLocals (trimSlot nodes) = slotLocals nodes := by
  rw [slotLocals_eq_flatMap, slotLocals_eq_flatMap, flatMap_trimSlot fun _ => rfl]

mutual

/-- Making a node visible keeps its local variables, in its slots too. -/
theorem Node.locals_visible (node : Node) :
    node.visible.locals = node.locals ∧ node.visible.slotLocals = node.slotLocals := by
  match node with
  | .text _ | .comment _ | .echo .. | .host .. | .flag .. | .component .. => exact ⟨rfl, rfl⟩
  | .conditional branches => exact branchesLocals_visible branches
  | .loop head bindings body =>
    obtain ⟨hlocals, hslots⟩ := locals_visible true body
    exact ⟨by rw [Node.visible, Node.locals_loop, Node.locals_loop, hlocals], hslots⟩
  | .existence expression body => exact locals_visible true body

/-- A tree as it is printed has the same local variables. -/
theorem locals_visible (afterTag : Bool) (nodes : List Node) :
    locals (visible afterTag nodes) = locals nodes ∧
      slotLocals (visible afterTag nodes) = slotLocals nodes := by
  match nodes with
  | [] => exact ⟨rfl, rfl⟩
  | .text content :: nodes =>
    obtain ⟨hlocals, hslots⟩ := locals_visible false nodes
    have htext : ∀ node ∈ visibleText afterTag content,
        node.locals = [] ∧ node.slotLocals = [] := by
      intro node hnode
      obtain ⟨text, rfl⟩ := exists_text_of_isText (isText_of_mem_visibleText hnode)
      exact ⟨rfl, rfl⟩
    rw [locals_eq_flatMap, slotLocals_eq_flatMap, visible, List.flatMap_append,
      List.flatMap_append,
      List.flatMap_eq_nil_iff.mpr fun node hnode => (htext node hnode).1,
      List.flatMap_eq_nil_iff.mpr fun node hnode => (htext node hnode).2, List.nil_append,
      List.nil_append, ← locals_eq_flatMap, ← slotLocals_eq_flatMap]
    exact ⟨hlocals, hslots⟩
  | .comment _ :: nodes | .echo .. :: nodes | .host .. :: nodes | .flag .. :: nodes
  | .component .. :: nodes | .conditional _ :: nodes | .loop .. :: nodes
  | .existence .. :: nodes =>
    obtain ⟨hlocals, hslots⟩ := locals_visible true nodes
    rw [visible, locals_cons, locals_cons, slotLocals, slotLocals, (Node.locals_visible _).1,
      (Node.locals_visible _).2, hlocals, hslots]
    · exact ⟨rfl, rfl⟩
    · exact fun _ h => nomatch h

/-- The same of the branches of a conditional. -/
theorem branchesLocals_visible (branches : List Branch) :
    branchesLocals (visibleBranches branches) = branchesLocals branches ∧
      branchesSlotLocals (visibleBranches branches) = branchesSlotLocals branches := by
  match branches with
  | [] => exact ⟨rfl, rfl⟩
  | ⟨condition, body⟩ :: branches =>
    obtain ⟨hlocals, hslots⟩ := locals_visible true body
    obtain ⟨hlocals', hslots'⟩ := branchesLocals_visible branches
    rw [visibleBranches, branchesLocals_cons, branchesLocals_cons, branchesSlotLocals,
      branchesSlotLocals, hlocals, hslots, hlocals', hslots']
    exact ⟨rfl, rfl⟩
end

/-! ### Parsed trees -/

mutual

/-- Rewriting accesses keeps the local variables of a node, in its slots too. -/
theorem Node.locals_withCalls (node : Node) :
    node.withCalls.locals = node.locals ∧ node.withCalls.slotLocals = node.slotLocals := by
  match node with
  | .text _ | .comment _ | .echo .. | .host .. | .flag .. => exact ⟨rfl, rfl⟩
  | .conditional branches => exact branchesLocals_withCalls branches
  | .loop head bindings body =>
    obtain ⟨hlocals, hslots⟩ := locals_withCalls body
    exact ⟨by rw [Node.withCalls, Node.locals_loop, Node.locals_loop, hlocals], hslots⟩
  | .existence expression body => exact locals_withCalls body
  | .component tag attributes content slots =>
    obtain ⟨hlocals, hslots⟩ := locals_withCalls content
    rw [Node.withCalls, Node.slotLocals, Node.slotLocals, hlocals, hslots, slotsLocals_withCalls]
    exact ⟨rfl, rfl⟩

/-- A tree has the same local variables with its accesses as calls. -/
theorem locals_withCalls (nodes : List Node) :
    locals (withCalls nodes) = locals nodes ∧ slotLocals (withCalls nodes) = slotLocals nodes := by
  match nodes with
  | [] => exact ⟨rfl, rfl⟩
  | node :: nodes =>
    obtain ⟨hlocals, hslots⟩ := Node.locals_withCalls node
    obtain ⟨hlocals', hslots'⟩ := locals_withCalls nodes
    rw [withCalls, locals_cons, locals_cons, slotLocals, slotLocals, hlocals, hslots, hlocals',
      hslots']
    exact ⟨rfl, rfl⟩

/-- The same of the branches of a conditional. -/
theorem branchesLocals_withCalls (branches : List Branch) :
    branchesLocals (branchesWithCalls branches) = branchesLocals branches ∧
      branchesSlotLocals (branchesWithCalls branches) = branchesSlotLocals branches := by
  match branches with
  | [] => exact ⟨rfl, rfl⟩
  | ⟨condition, body⟩ :: branches =>
    obtain ⟨hlocals, hslots⟩ := locals_withCalls body
    obtain ⟨hlocals', hslots'⟩ := branchesLocals_withCalls branches
    rw [branchesWithCalls, branchesLocals_cons, branchesLocals_cons, branchesSlotLocals,
      branchesSlotLocals, hlocals, hslots, hlocals', hslots']
    exact ⟨rfl, rfl⟩

/-- The same of the slots of a component. -/
theorem slotsLocals_withCalls (slots : List NamedSlot) :
    slotsLocals (slotsWithCalls slots) = slotsLocals slots := by
  match slots with
  | [] => rfl
  | ⟨name, body⟩ :: slots =>
    obtain ⟨hlocals, hslots⟩ := locals_withCalls body
    rw [slotsWithCalls, slotsLocals, slotsLocals, hlocals, hslots, slotsLocals_withCalls slots]
end

/-- Text that is added to children adds nothing that text does not have. -/
theorem flatMap_nodesOf_addChildren {α : Type} {f : Node → List α}
    (h : ∀ content, f (.text content) = []) (children new : List Child) :
    (nodesOf (addChildren children new)).flatMap f =
      (nodesOf children).flatMap f ++ (nodesOf new).flatMap f := by
  have happend : ∀ children new : List Child,
      nodesOf (children ++ new) = nodesOf children ++ nodesOf new := fun _ _ =>
    List.filterMap_append
  have htext : ∀ content children,
      (nodesOf (addText content children)).flatMap f = (nodesOf children).flatMap f := by
    intro content children
    fun_induction addText content children with
    | case1 => exact congrArg (· ++ []) (h content)
    | case2 before => exact congrArg (· ++ []) ((h _).trans (h before).symm)
    | case3 child children _ ih =>
      rw [← List.singleton_append, happend, List.flatMap_append, ih, ← List.flatMap_append,
        ← happend, List.singleton_append]
  induction new generalizing children with
  | nil => exact (List.append_nil _).symm
  | cons child new ih =>
    have hchild : (nodesOf (addChild children child)).flatMap f =
        (nodesOf children).flatMap f ++ (nodesOf [child]).flatMap f := by
      fun_cases addChild children child with
      | case1 => exact (List.append_nil _).symm.trans (congrArg _ (congrArg (· ++ []) (h _)).symm)
      | case2 content _ =>
        rw [htext]
        exact (List.append_nil _).symm.trans (congrArg _ (congrArg (· ++ []) (h content)).symm)
      | case3 => rw [happend, List.flatMap_append]
    rw [addChildren, List.foldl_cons]
    refine (ih _).trans ?_
    rw [hchild, List.append_assoc, ← List.flatMap_append, ← happend, List.singleton_append]

mutual

/-- A node as the source spells it has no local variables. -/
theorem Derives.locals_eq {node : Node} {source : List Char} (h : Derives node source) :
    node.locals = [] ∧ node.slotLocals = [] := by
  match h with
  | .text _ => exact ⟨rfl, rfl⟩
  | .single h => cases h <;> exact ⟨rfl, rfl⟩
  | .conditional _ hbody hbranches _ =>
    obtain ⟨hlocals, hslots⟩ := hbody.locals_eq
    obtain ⟨hlocals', hslots'⟩ := hbranches.locals_eq
    rw [Node.locals_conditional, branchesLocals_cons, Node.slotLocals, branchesSlotLocals, hlocals,
      hslots, hlocals', hslots']
    exact ⟨rfl, rfl⟩
  | .loop _ hbody _ => exact hbody.locals_eq
  | .existence _ hbody _ => exact hbody.locals_eq
  | .component _ hchildren _ =>
    obtain ⟨hlocals, hslots, hnamed⟩ := hchildren.locals_eq
    refine ⟨rfl, ?_⟩
    have hdefault : ∀ {f : Node → List Binding} {children : List Child},
        (∀ content, f (.text content) = []) → (nodesOf children).flatMap f = [] →
        (Frame.defaultContent children).flatMap f = [] := by
      intro f children htext hchildren
      have hnodes : nodesOf ((nodesOf children).map Child.node) = nodesOf children := by
        rw [nodesOf, List.filterMap_map]
        exact List.filterMap_some
      rw [Frame.defaultContent, flatMap_nodesOf_addChildren htext, hnodes, hchildren]
      rfl
    rw [Node.slotLocals, locals_eq_flatMap, slotLocals_eq_flatMap,
      hdefault (fun _ => rfl) (by rw [← locals_eq_flatMap, hlocals]),
      hdefault (fun _ => rfl) (by rw [← slotLocals_eq_flatMap, hslots])]
    exact slotsLocals_eq_nil_iff.mpr fun s hs => hnamed s (mem_of_mem_collectBy hs)

/-- The loops of a parsed template have no local variables, those in slots neither. -/
theorem DerivesAll.locals_eq {nodes : List Node} {source : List Char}
    (h : DerivesAll nodes source) : locals nodes = [] ∧ slotLocals nodes = [] := by
  match h with
  | .nil => exact ⟨rfl, rfl⟩
  | .cons hnode h =>
    obtain ⟨hlocals, hslots⟩ := hnode.locals_eq
    obtain ⟨hlocals', hslots'⟩ := h.locals_eq
    rw [locals_cons, slotLocals, hlocals, hslots, hlocals', hslots']
    exact ⟨rfl, rfl⟩

/-- The same of the branches of a conditional. -/
theorem DerivesBranches.locals_eq {branches : List Branch} {source : List Char}
    (h : DerivesBranches branches source) :
    branchesLocals branches = [] ∧ branchesSlotLocals branches = [] := by
  match h with
  | .nil => exact ⟨rfl, rfl⟩
  | .next _ hbody h =>
    obtain ⟨hlocals, hslots⟩ := hbody.locals_eq
    obtain ⟨hlocals', hslots'⟩ := h.locals_eq
    rw [branchesLocals_cons, branchesSlotLocals, hlocals, hslots, hlocals', hslots']
    exact ⟨rfl, rfl⟩
  | .alternative _ hbody =>
    obtain ⟨hlocals, hslots⟩ := hbody.locals_eq
    rw [branchesLocals_cons, branchesSlotLocals, hlocals, hslots]
    exact ⟨rfl, rfl⟩

/-- The same of the children of a construct and of the slots among them. -/
theorem DerivesChildren.locals_eq {children : List Child} {source : List Char}
    (h : DerivesChildren children source) :
    locals (nodesOf children) = [] ∧ slotLocals (nodesOf children) = [] ∧
      ∀ s ∈ slotsOf children, locals s.body = [] ∧ slotLocals s.body = [] := by
  match h with
  | .nil => exact ⟨rfl, rfl, fun _ hs => absurd hs List.not_mem_nil⟩
  | @DerivesChildren.node node children _ _ hnode h =>
    obtain ⟨hlocals, hslots⟩ := hnode.locals_eq
    obtain ⟨hlocals', hslots', hnamed⟩ := h.locals_eq
    have hnodes : nodesOf (.node node :: children) = node :: nodesOf children := rfl
    rw [hnodes, locals_cons, slotLocals, hlocals, hslots, hlocals', hslots']
    exact ⟨rfl, rfl, hnamed⟩
  | .slot _ hbody _ h =>
    obtain ⟨hlocals, hslots, hnamed⟩ := h.locals_eq
    exact ⟨hlocals, hslots, List.forall_mem_cons.mpr ⟨hbody.locals_eq, hnamed⟩⟩
end

/-! ## Rounds -/

/-- The local variable of a loop that assigns the names is bound to a call on one of them. -/
def OwnCall (p : List String × Binding) : Prop :=
  ∃ a : DottedPath, a.Readable ∧ String.ofList a.name ∈ p.1 ∧ p.2.value = String.ofList a.call

/-- A call that is not wanted stays as it is in a round. -/
theorem rewritten_call {wanted : Wanted} {hoists : List Hoist} {shadowed : List String}
    {a : DottedPath} (ha : a.Readable) (h : wanted (String.ofList a.name) shadowed = false) :
    rewritten wanted hoists ⟨shadowed, String.ofList a.call⟩ = String.ofList a.call := by
  have hheld : heldText (heldBy wanted hoists shadowed) a = a.call := by
    rw [← replaceCall_eq, replaceCall, h]
    rfl
  rw [← String.toList_inj, toList_rewritten, String.toList_ofList, pieces_call ha,
    spelled_exchanged]
  exact (List.append_nil _).trans hheld

section Rounds

variable {wanted : Wanted} {hoists : List Hoist}

mutual

/-- A round leaves the local variables that loops bind to calls on their own variables. -/
theorem Node.loopLocals_mapSites
    (hwanted : ∀ name shadowed, wanted name shadowed = true → name ∉ shadowed)
    (shadowed : List String) (node : Node)
    (h : ∀ p ∈ node.loopLocals, OwnCall p) :
    (node.mapSites (rewritten wanted hoists) shadowed).loopLocals = node.loopLocals := by
  match node with
  | .echo .. | .flag .. | .text _ | .comment _ | .host .. | .component .. => rfl
  | .conditional branches => exact loopLocals_mapBranchSites hwanted shadowed branches h
  | .existence expression body => exact loopLocals_mapSites hwanted shadowed body h
  | .loop head bindings body =>
    obtain ⟨hbindings, hbody⟩ := List.forall_mem_append.mp h
    rw [Node.mapSites, Node.loopLocals, Node.loopLocals, loopLocals_mapSites hwanted _ body hbody,
      List.map_map]
    congr 1
    refine List.map_congr_left fun b hb => ?_
    obtain ⟨a, ha, hname, hvalue⟩ := hbindings (head.names, b) (List.mem_map_of_mem hb)
    -- The variable of the call is assigned by the loop, so the call is shadowed.
    have hmem : String.ofList a.name ∈ head.names ++ rebound body ++ shadowed :=
      List.mem_append_left _ (List.mem_append_left _ hname)
    have hshadowed :
        wanted (String.ofList a.name) (head.names ++ rebound body ++ shadowed) = false :=
      Bool.eq_false_iff.mpr fun hw => hwanted _ _ hw hmem
    obtain ⟨name, value⟩ := b
    obtain rfl : value = String.ofList a.call := hvalue
    exact congrArg (fun value => (head.names, (⟨name, value⟩ : Binding)))
      (rewritten_call ha hshadowed)

/-- **A round leaves the local variables of loops alone** whose values are calls on the loops' own
variables. -/
theorem loopLocals_mapSites
    (hwanted : ∀ name shadowed, wanted name shadowed = true → name ∉ shadowed)
    (shadowed : List String) (nodes : List Node)
    (h : ∀ p ∈ loopLocals nodes, OwnCall p) :
    loopLocals (mapSites (rewritten wanted hoists) shadowed nodes) = loopLocals nodes := by
  match nodes with
  | [] => rfl
  | node :: nodes =>
    obtain ⟨hnode, hnodes⟩ := List.forall_mem_append.mp h
    rw [mapSites, loopLocals, loopLocals, Node.loopLocals_mapSites hwanted shadowed node hnode,
      loopLocals_mapSites hwanted _ nodes hnodes]

/-- The same of the branches of a conditional. -/
theorem loopLocals_mapBranchSites
    (hwanted : ∀ name shadowed, wanted name shadowed = true → name ∉ shadowed)
    (shadowed : List String) (branches : List Branch)
    (h : ∀ p ∈ branchesLoopLocals branches, OwnCall p) :
    branchesLoopLocals (mapBranchSites (rewritten wanted hoists) shadowed branches) =
      branchesLoopLocals branches := by
  match branches with
  | [] => rfl
  | ⟨condition, body⟩ :: branches =>
    obtain ⟨hbody, hbranches⟩ := List.forall_mem_append.mp h
    rw [mapBranchSites, branchesLoopLocals, branchesLoopLocals,
      loopLocals_mapSites hwanted shadowed body hbody,
      loopLocals_mapBranchSites hwanted _ branches hbranches]
end

end Rounds

/-! ## The passes -/

/-- The local variables after a pass are those before it and one for each hoist, in some order. -/
def Adds (before : List Binding) (hoists : List Hoist) (after : List Binding) : Prop :=
  after.Perm (before ++ hoists.map Hoist.binding)

/-- A pass without hoists adds nothing. -/
theorem Adds.refl (before : List Binding) : Adds before [] before :=
  .of_eq (List.append_nil before).symm

/-- Two lists of local variables, one added to after the other. -/
theorem Adds.append {before before' after after' : List Binding} {hoists hoists' : List Hoist}
    (h : Adds before hoists after) (h' : Adds before' hoists' after') :
    Adds (before ++ before') (hoists ++ hoists') (after ++ after') := by
  refine (List.Perm.append h h').trans (List.perm_iff_count.mpr fun b => ?_)
  simp only [List.map_append, List.count_append]
  omega

/-- Names are taken for local variables that are added to those of loops. -/
def AddsOwn (taken : Names) (before after : List (List String × Binding)) (left : Names) : Prop :=
  ∃ hoists, Takes taken hoists left ∧ Adds (before.map (·.2)) hoists (after.map (·.2)) ∧
    ∀ p ∈ after, OwnCall p

/-- Nothing is added where no names are taken. -/
theorem AddsOwn.refl (taken : Names) {before : List (List String × Binding)}
    (h : ∀ p ∈ before, OwnCall p) : AddsOwn taken before before taken :=
  ⟨[], .nil taken, .refl _, h⟩

/-- What is added in one list and then in another is added in both. -/
theorem AddsOwn.append {taken middle left : Names}
    {before before' after after' : List (List String × Binding)}
    (h : AddsOwn taken before after middle) (h' : AddsOwn middle before' after' left) :
    AddsOwn taken (before ++ before') (after ++ after') left := by
  obtain ⟨hoists, htakes, hadds, hown⟩ := h
  obtain ⟨hoists', htakes', hadds', hown'⟩ := h'
  refine ⟨hoists ++ hoists', htakes.append htakes', ?_, List.forall_mem_append.mpr ⟨hown, hown'⟩⟩
  rw [List.map_append, List.map_append]
  exact hadds.append hadds'

mutual

/-- Deduplicating the loops of a node adds local variables bound to calls on the loops' own
variables. -/
theorem Node.addsOwn_dedupLoops (node : Node) (taken : Names)
    (h : ∀ p ∈ node.loopLocals, OwnCall p) :
    AddsOwn taken node.loopLocals (node.dedupLoops.run taken).1.loopLocals
      (node.dedupLoops.run taken).2 := by
  match node with
  | .text _ | .comment _ | .echo .. | .host .. | .flag .. | .component .. => exact .refl taken h
  | .conditional branches => exact addsOwn_dedupBranches branches taken h
  | .existence expression body => exact addsOwn_dedupLoops body taken h
  | .loop head bindings body =>
    obtain ⟨hbindings, hbody⟩ := List.forall_mem_append.mp h
    have hinner := addsOwn_dedupLoops body taken hbody
    rw [run_dedupLoops_loop]
    split
    · exact (AddsOwn.refl taken hbindings).append hinner
    · obtain ⟨hoists, htakes, hadds, hown⟩ := hinner
      have hround := takes_roundHoists (ownCalls head) ((dedupLoops body).run taken).1
        ((dedupLoops body).run taken).2
      have hwanted : ∀ name shadowed, ownCalls head name shadowed = true → name ∉ shadowed :=
        fun name shadowed hw => by simpa using (Bool.and_eq_true_iff.mp hw).2
      rw [hoistRepeated_eq] at hround ⊢
      refine ⟨hoists ++ _, htakes.append hround, ?_, ?_⟩
      · simp only [Node.loopLocals, List.map_append, List.map_map]
        rw [loopLocals_mapSites hwanted [] _ hown]
        refine List.perm_iff_count.mpr fun b => ?_
        have hcount := List.perm_iff_count.mp hadds b
        simp only [List.map_append, List.count_append, Function.comp_def, List.map_id'] at hcount ⊢
        rw [hcount]
        ac_rfl
      · rw [Node.loopLocals, loopLocals_mapSites hwanted [] _ hown, List.map_append]
        refine List.forall_mem_append.mpr ⟨List.forall_mem_append.mpr ⟨hbindings, ?_⟩, hown⟩
        rw [List.forall_mem_map, List.forall_mem_map]
        exact fun k hk => ⟨k.call, readable_of_mem_roundHoists hk,
          Narrowed.name_mem_of_mem_roundHoists hk, rfl⟩

/-- **The pass over the loops** binds every name that it takes once. -/
theorem addsOwn_dedupLoops (nodes : List Node) (taken : Names)
    (h : ∀ p ∈ loopLocals nodes, OwnCall p) :
    AddsOwn taken (loopLocals nodes) (loopLocals ((dedupLoops nodes).run taken).1)
      ((dedupLoops nodes).run taken).2 := by
  match nodes with
  | [] => exact .refl taken h
  | node :: nodes =>
    obtain ⟨hnode, hnodes⟩ := List.forall_mem_append.mp h
    rw [run_dedupLoops_cons]
    exact (Node.addsOwn_dedupLoops node taken hnode).append (addsOwn_dedupLoops nodes _ hnodes)

/-- The same of the branches of a conditional. -/
theorem addsOwn_dedupBranches (branches : List Branch) (taken : Names)
    (h : ∀ p ∈ branchesLoopLocals branches, OwnCall p) :
    AddsOwn taken (branchesLoopLocals branches)
      (branchesLoopLocals ((dedupBranches branches).run taken).1)
      ((dedupBranches branches).run taken).2 := by
  match branches with
  | [] => exact .refl taken h
  | ⟨condition, body⟩ :: branches =>
    obtain ⟨hbody, hbranches⟩ := List.forall_mem_append.mp h
    rw [run_dedupBranches_cons]
    exact (addsOwn_dedupLoops body taken hbody).append (addsOwn_dedupBranches branches _ hbranches)
end

/-- **Deduplication binds every name that it takes once**, in a loop of the tree or ahead of the
tree, if the tree has no local variables yet. -/
theorem exists_takes_dedup {nodes : List Node} (hnodes : locals nodes = []) (taken : Names) :
    ∃ hoists, Takes taken hoists ((dedup nodes).run taken).2 ∧
      Adds [] hoists (((dedup nodes).run taken).1.2 ++ locals ((dedup nodes).run taken).1.1) := by
  have hnone : loopLocals nodes = [] := List.map_eq_nil_iff.mp hnodes
  obtain ⟨hoists, htakes, hadds, hown⟩ := addsOwn_dedupLoops nodes taken
    (by rw [hnone]; exact fun p hp => absurd hp List.not_mem_nil)
  rw [hnone] at hadds
  rw [left_dedup, run_dedup_eq]
  split
  · exact ⟨hoists, htakes, hadds⟩
  · have hround := takes_roundHoists freeCalls ((dedupLoops nodes).run taken).1
      ((dedupLoops nodes).run taken).2
    refine ⟨hoists ++ _, htakes.append hround, ?_⟩
    have hwanted : ∀ name shadowed, freeCalls name shadowed = true → name ∉ shadowed :=
      fun name shadowed hw => by simpa [freeCalls] using hw
    rw [hoistRepeated_eq, locals, loopLocals_mapSites hwanted [] _ hown]
    refine List.perm_append_comm.trans ?_
    rw [Adds, List.map_append] at *
    exact List.Perm.append_right _ hadds

/-! ### The content of slots -/

mutual

/-- The outline of a node keeps the local variables of its slots. -/
theorem Node.slotLocals_outline (node : Node) : node.outline.slotLocals = node.slotLocals := by
  match node with
  | .text _ | .comment _ | .echo .. | .host .. | .flag .. | .component .. => rfl
  | .conditional branches => exact branchesSlotLocals_outline branches
  | .loop head bindings body => exact slotLocals_outline body
  | .existence expression body => exact slotLocals_outline body

/-- The outline of a tree has the slots of the tree. -/
theorem slotLocals_outline (nodes : List Node) :
    slotLocals (outline nodes) = slotLocals nodes := by
  match nodes with
  | [] => rfl
  | node :: nodes =>
    rw [outline, slotLocals, slotLocals, Node.slotLocals_outline, slotLocals_outline nodes]

/-- The same of the branches of a conditional. -/
theorem branchesSlotLocals_outline (branches : List Branch) :
    branchesSlotLocals (branchesOutline branches) = branchesSlotLocals branches := by
  match branches with
  | [] => rfl
  | ⟨condition, body⟩ :: branches =>
    rw [branchesOutline, branchesSlotLocals, branchesSlotLocals, slotLocals_outline body,
      branchesSlotLocals_outline branches]
end

/-- Deduplication gives no local variables to the loops in slots. -/
theorem slotLocals_dedup (nodes : List Node) (taken : Names) :
    slotLocals ((dedup nodes).run taken).1.1 = slotLocals nodes := by
  rw [← slotLocals_outline, outline_dedup, slotLocals_outline]

end ViewCompiler.Template
