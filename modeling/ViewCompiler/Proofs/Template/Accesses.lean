import ViewCompiler.Proofs.Expression.Accesses
import ViewCompiler.Proofs.Template.DedupReads
import ViewCompiler.Proofs.Template.Reads

/-!
# Variables of a tree whose accesses are calls

The expressions in which accesses are written as calls are those of the whole tree, slots included.
Where the accesses of all of them are apart, the tree reads the same variables
(`freeVariables_withCalls`).
-/

namespace ViewCompiler.Template

open Expression

/-! ## Expressions with accesses -/

mutual

/-- The expressions of a node in which accesses are written as calls, those in slots included. -/
def Node.accessing : Node → List String
  | .echo expression _ => [expression]
  | .conditional branches => branchesAccessing branches
  | .loop head _ body => head.collection :: accessing body
  | .existence expression body => expression :: accessing body
  | .flag _ expression => [expression]
  | .component _ attributes content slots =>
    attributes.filterMap Attribute.expression? ++ accessing content ++ slotsAccessing slots
  | _ => []

/-- The expressions of nodes in which accesses are written as calls. -/
def accessing : List Node → List String
  | [] => []
  | node :: nodes => node.accessing ++ accessing nodes

/-- The expressions of branches in which accesses are written as calls. -/
def branchesAccessing : List Branch → List String
  | [] => []
  | ⟨condition, body⟩ :: branches =>
    condition.toList ++ accessing body ++ branchesAccessing branches

/-- The expressions of named slots in which accesses are written as calls. -/
def slotsAccessing : List NamedSlot → List String
  | [] => []
  | ⟨_, body⟩ :: slots => accessing body ++ slotsAccessing slots
end

/-! ## What a tree with calls reads -/

/-- An expression reads the same with its accesses as calls, if they are apart. -/
theorem unbound_callAccesses {expression : String} (h : accessesApart expression = true)
    (bound : List String) :
    unbound bound (callAccesses expression) = unbound bound expression := by
  rw [unbound, unbound, mentioned_callAccesses h]

/-- Rewriting accesses that stand apart keeps the unbound names of expressions. -/
theorem flatMap_unbound_callAccesses {expressions : List String}
    (h : ∀ e ∈ expressions, accessesApart e = true) (bound : List String) :
    (expressions.map callAccesses).flatMap (unbound bound) =
      expressions.flatMap (unbound bound) := by
  rw [List.flatMap_map]
  exact List.flatMap_congr fun e he => unbound_callAccesses (h e he) bound

mutual

/-- Rewriting its accesses keeps the names a node reads. -/
theorem Node.reads_withCalls (bound : List String) (node : Node)
    (h : ∀ e ∈ node.accessing, accessesApart e = true) :
    node.withCalls.reads bound = node.reads bound := by
  match node with
  | .text _ | .comment _ | .host .. => rfl
  | .echo expression _ | .flag _ expression =>
    exact unbound_callAccesses (h expression List.mem_cons_self) bound
  | .conditional branches => exact branchesRead_withCalls bound branches h
  | .existence expression body =>
    obtain ⟨hexpression, hbody⟩ := List.forall_mem_cons.mp h
    rw [Node.withCalls, Node.reads, Node.reads, unbound_callAccesses hexpression,
      reads_withCalls bound body hbody]
  | .loop head bindings body =>
    obtain ⟨hcollection, hbody⟩ := List.forall_mem_cons.mp h
    have hnames : LoopHead.names { head with collection := callAccesses head.collection } =
        head.names := rfl
    simp only [Node.withCalls, Node.reads, hnames, unbound_callAccesses hcollection,
      reads_withCalls _ body hbody]
  | .component tag attributes content slots =>
    obtain ⟨hcontent, hslots⟩ := List.forall_mem_append.mp h
    obtain ⟨hattributes, hcontent⟩ := List.forall_mem_append.mp hcontent
    rw [Node.withCalls, Node.reads, Node.reads, filterMap_mapExpression,
      flatMap_unbound_callAccesses hattributes, reads_withCalls bound content hcontent,
      slotsRead_withCalls bound slots hslots]

/-- **A tree reads the same variables with its accesses as calls**, if they are apart. -/
theorem reads_withCalls (bound : List String) (nodes : List Node)
    (h : ∀ e ∈ accessing nodes, accessesApart e = true) :
    reads bound (withCalls nodes) = reads bound nodes := by
  match nodes with
  | [] => rfl
  | node :: nodes =>
    obtain ⟨hnode, hnodes⟩ := List.forall_mem_append.mp h
    rw [withCalls, reads, reads, Node.reads_withCalls bound node hnode,
      reads_withCalls bound nodes hnodes]

/-- Rewriting their accesses keeps the names the branches of a conditional read. -/
theorem branchesRead_withCalls (bound : List String) (branches : List Branch)
    (h : ∀ e ∈ branchesAccessing branches, accessesApart e = true) :
    branchesRead bound (branchesWithCalls branches) = branchesRead bound branches := by
  match branches with
  | [] => rfl
  | ⟨condition, body⟩ :: branches =>
    obtain ⟨hbody, hbranches⟩ := List.forall_mem_append.mp h
    obtain ⟨hcondition, hbody⟩ := List.forall_mem_append.mp hbody
    have hcalls : (condition.map callAccesses).toList = condition.toList.map callAccesses := by
      cases condition <;> rfl
    rw [branchesWithCalls, branchesRead, branchesRead, hcalls,
      flatMap_unbound_callAccesses hcondition, reads_withCalls bound body hbody,
      branchesRead_withCalls bound branches hbranches]

/-- Rewriting their accesses keeps the names the slots of a component read. -/
theorem slotsRead_withCalls (bound : List String) (slots : List NamedSlot)
    (h : ∀ e ∈ slotsAccessing slots, accessesApart e = true) :
    slotsRead bound (slotsWithCalls slots) = slotsRead bound slots := by
  match slots with
  | [] => rfl
  | ⟨name, body⟩ :: slots =>
    obtain ⟨hbody, hslots⟩ := List.forall_mem_append.mp h
    rw [slotsWithCalls, slotsRead, slotsRead, reads_withCalls bound body hbody,
      slotsRead_withCalls bound slots hslots]
end

/-- The free variables of a tree are the same with its accesses as calls, if they are apart. -/
theorem freeVariables_withCalls {nodes : List Node}
    (h : ∀ e ∈ accessing nodes, accessesApart e = true) (bound : List String) :
    freeVariables (withCalls nodes) bound = freeVariables nodes bound := by
  rw [freeVariables, freeVariables, reads_withCalls bound nodes h]

end ViewCompiler.Template
