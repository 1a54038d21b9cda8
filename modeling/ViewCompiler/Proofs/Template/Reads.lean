import ViewCompiler.Proofs.Template.Forms
import ViewCompiler.Proofs.Template.Nesting
import ViewCompiler.Template.Scope

/-!
# Unbound variables

What a tree reads is what its nodes read. Neither trimming the content of a slot nor taking line
ends away changes it, and with more names bound only those are read no longer
(`reads_append_bound`). What a body somewhere in a tree reads the tree reads too, unless a loop
around the body binds it (`Within.mem_reads`).
-/

namespace ViewCompiler.Template

open Expression (mentioned)

/-- With nothing bound every mentioned name is unbound. -/
theorem unbound_nil (expression : String) : unbound [] expression = mentioned expression := by
  simp [unbound]

/-! ## Parts of a tree -/

/-- A list reads what its nodes read. -/
theorem reads_eq_flatMap (bound : List String) (nodes : List Node) :
    reads bound nodes = nodes.flatMap (Node.reads bound) := by
  induction nodes with
  | nil => rfl
  | cons node nodes ih => rw [reads, ih, List.flatMap_cons]

/-- Slots read what their bodies read. -/
theorem slotsRead_eq_flatMap (bound : List String) (slots : List NamedSlot) :
    slotsRead bound slots = slots.flatMap fun s => reads bound s.body := by
  induction slots with
  | nil => rfl
  | cons s slots ih =>
    obtain ⟨name, body⟩ := s
    rw [slotsRead, ih, List.flatMap_cons]

/-- Branches read what their conditions mention and their bodies read. -/
theorem branchesRead_eq_flatMap (bound : List String) (branches : List Branch) :
    branchesRead bound branches = branches.flatMap fun b =>
      b.condition.toList.flatMap (unbound bound) ++ reads bound b.body := by
  induction branches with
  | nil => rfl
  | cons b branches ih =>
    obtain ⟨condition, body⟩ := b
    rw [branchesRead, ih, List.flatMap_cons]

/-- A list reads all that a node of it reads. -/
theorem reads_subset (bound : List String) {nodes : List Node} {node : Node} (h : node ∈ nodes) :
    node.reads bound ⊆ reads bound nodes := by
  rw [reads_eq_flatMap]
  exact fun x hx => List.mem_flatMap.mpr ⟨node, h, hx⟩

/-- The free variables are the names that are read. -/
theorem mem_freeVariables {nodes : List Node} {bound : List String} {x : String} :
    x ∈ freeVariables nodes bound ↔ x ∈ reads bound nodes := by
  simp [freeVariables, sorted]

/-! ## Trimming -/

/-- Trimming the content of a slot changes texts only. -/
theorem flatMap_trimSlot {α : Type} {f : Node → List α} (h : ∀ content, f (.text content) = [])
    (nodes : List Node) : (trimSlot nodes).flatMap f = nodes.flatMap f := by
  have hfirst : (trimFirst nodes).flatMap f = nodes.flatMap f := by
    fun_cases trimFirst nodes with
    | case1 content nodes => rw [List.flatMap_cons, List.flatMap_cons, h, h]
    | case2 => rfl
  have hlast : ∀ nodes, (trimLast nodes).flatMap f = nodes.flatMap f := by
    intro nodes
    fun_induction trimLast nodes with
    | case1 => rfl
    | case2 content => rw [List.flatMap_cons, List.flatMap_cons, h, h]
    | case3 node nodes _ ih => rw [List.flatMap_cons, List.flatMap_cons, ih]
  have hfilter : ∀ nodes : List Node,
      (nodes.filter (!·.isEmptyText)).flatMap f = nodes.flatMap f := by
    intro nodes
    induction nodes with
    | nil => rfl
    | cons node nodes ih =>
      rw [List.filter_cons]
      split
      · rw [List.flatMap_cons, List.flatMap_cons, ih]
      · rename_i hempty
        have hnode : f node = [] := by
          cases node with
          | text content => exact h content
          | _ => exact absurd rfl hempty
        rw [List.flatMap_cons, hnode, ih, List.nil_append]
  rw [trimSlot, hfilter, hlast, hfirst]

/-- Trimming the content of a slot keeps what it reads. -/
theorem reads_trimSlot (bound : List String) (nodes : List Node) :
    reads bound (trimSlot nodes) = reads bound nodes := by
  rw [reads_eq_flatMap, reads_eq_flatMap, flatMap_trimSlot fun _ => rfl]

/-! ## Line ends -/

/-- An interpolation is printed as it is. -/
theorem mem_of_mem_visible {node : Node} (hnode : node.isInterpolation = true) {afterTag : Bool}
    {nodes : List Node} (h : node ∈ visible afterTag nodes) : node ∈ nodes := by
  induction nodes generalizing afterTag with
  | nil => cases h
  | cons other nodes ih =>
    match other with
    | .text content =>
      rcases List.mem_append.mp h with htext | h
      · have hno : node.isText = false := by cases node <;> first | rfl | cases hnode
        rw [isText_of_mem_visibleText htext] at hno
        cases hno
      · exact List.mem_cons_of_mem _ (ih h)
    | .comment _ | .echo .. | .host .. | .flag .. | .component .. =>
      rcases List.mem_cons.mp h with rfl | h
      · exact List.mem_cons_self
      · exact List.mem_cons_of_mem _ (ih h)
    | .conditional _ | .loop .. | .existence .. =>
      rcases List.mem_cons.mp h with rfl | h
      · cases hnode
      · exact List.mem_cons_of_mem _ (ih h)

/-- Text reads nothing. -/
theorem reads_visibleText (bound : List String) (afterTag : Bool) (content : String) :
    reads bound (visibleText afterTag content) = [] := by
  rw [reads_eq_flatMap, List.flatMap_eq_nil_iff]
  intro node hnode
  have htext := isText_of_mem_visibleText hnode
  match node with
  | .text _ => rfl

/-- Two lists read what one and the other read. -/
theorem reads_append (bound : List String) (nodes others : List Node) :
    reads bound (nodes ++ others) = reads bound nodes ++ reads bound others := by
  simp only [reads_eq_flatMap, List.flatMap_append]

mutual

/-- Making a node visible keeps what it reads. -/
theorem Node.reads_visible (bound : List String) (node : Node) :
    node.visible.reads bound = node.reads bound := by
  match node with
  | .text _ | .comment _ | .echo .. | .host .. | .flag .. | .component .. => rfl
  | .conditional branches => exact branchesRead_visible bound branches
  | .loop head bindings body =>
    rw [Node.visible, Node.reads, Node.reads, reads_visible _ true body]
  | .existence expression body =>
    rw [Node.visible, Node.reads, Node.reads, reads_visible _ true body]

/-- A tree as it is printed reads the same. -/
theorem reads_visible (bound : List String) (afterTag : Bool) (nodes : List Node) :
    reads bound (visible afterTag nodes) = reads bound nodes := by
  match nodes with
  | [] => rfl
  | .text content :: nodes =>
    rw [visible, reads_append, reads_visibleText, reads_visible bound false nodes]
    rfl
  | .comment _ :: nodes | .echo .. :: nodes | .host .. :: nodes | .flag .. :: nodes
  | .component .. :: nodes | .conditional _ :: nodes | .loop .. :: nodes
  | .existence .. :: nodes =>
    rw [visible, reads, reads, Node.reads_visible bound, reads_visible bound true nodes]
    exact fun _ h => nomatch h

/-- The same of the branches of a conditional. -/
theorem branchesRead_visible (bound : List String) (branches : List Branch) :
    branchesRead bound (visibleBranches branches) = branchesRead bound branches := by
  match branches with
  | [] => rfl
  | ⟨condition, body⟩ :: branches =>
    rw [visibleBranches, branchesRead, branchesRead, reads_visible bound true body,
      branchesRead_visible bound branches]
end

/-! ## Binding more names -/

section Bound

variable {x : String}

/-- The unbound names of an expression are those it mentions that are not bound. -/
theorem mem_unbound {bound : List String} {expression : String} :
    x ∈ unbound bound expression ↔ x ∈ mentioned expression ∧ x ∉ bound := by
  simp [unbound]

/-- Further bound names are left out of the unbound ones. -/
theorem unbound_append (inner bound : List String) (expression : String) :
    unbound (inner ++ bound) expression = (unbound inner expression).filter (· ∉ bound) := by
  rw [unbound, unbound, List.filter_filter]
  refine List.filter_congr fun x _ => ?_
  simp only [List.mem_append, not_or, Bool.decide_and]
  exact Bool.and_comm _ _

/-- The same of several expressions. -/
theorem flatMap_unbound_append {α : Type} (inner bound : List String) (expression : α → String)
    (as : List α) :
    as.flatMap (fun a => unbound (inner ++ bound) (expression a)) =
      (as.flatMap fun a => unbound inner (expression a)).filter (· ∉ bound) := by
  rw [List.filter_flatMap]
  exact List.flatMap_congr fun a _ => unbound_append inner bound (expression a)

mutual

/-- Names bound around a node are left out of what it reads. -/
theorem Node.reads_append (inner bound : List String) (node : Node) :
    node.reads (inner ++ bound) = (node.reads inner).filter (· ∉ bound) := by
  match node with
  | .text _ | .comment _ => rfl
  | .echo expression _ | .host expression _ | .flag _ expression =>
    exact unbound_append inner bound expression
  | .conditional branches => exact branchesRead_append inner bound branches
  | .existence expression body =>
    rw [Node.reads, Node.reads, unbound_append, reads_append_bound, List.filter_append]
  | .loop head bindings body =>
    simp only [Node.reads, ← List.append_assoc, List.filter_append]
    rw [unbound_append, flatMap_unbound_append, reads_append_bound]
  | .component tag attributes content slots =>
    rw [Node.reads, Node.reads, flatMap_unbound_append, reads_append_bound, slotsRead_append,
      List.filter_append, List.filter_append]

/-- Where further names are bound, a tree reads all but these. -/
theorem reads_append_bound (inner bound : List String) (nodes : List Node) :
    reads (inner ++ bound) nodes = (reads inner nodes).filter (· ∉ bound) := by
  match nodes with
  | [] => rfl
  | node :: nodes =>
    rw [reads, reads, node.reads_append, reads_append_bound inner bound nodes, List.filter_append]

/-- The same of the branches of a conditional. -/
theorem branchesRead_append (inner bound : List String) (branches : List Branch) :
    branchesRead (inner ++ bound) branches =
      (branchesRead inner branches).filter (· ∉ bound) := by
  match branches with
  | [] => rfl
  | ⟨condition, body⟩ :: branches =>
    rw [branchesRead, branchesRead, flatMap_unbound_append, reads_append_bound inner bound body,
      branchesRead_append inner bound branches, List.filter_append, List.filter_append]

/-- The same of the slots of a component. -/
theorem slotsRead_append (inner bound : List String) (slots : List NamedSlot) :
    slotsRead (inner ++ bound) slots = (slotsRead inner slots).filter (· ∉ bound) := by
  match slots with
  | [] => rfl
  | ⟨_, body⟩ :: slots =>
    rw [slotsRead, slotsRead, reads_append_bound inner bound body,
      slotsRead_append inner bound slots, List.filter_append]
end

/-- **A variable is read where names are bound** if it is read at all and is none of them. -/
theorem mem_reads {bound : List String} {nodes : List Node} :
    x ∈ reads bound nodes ↔ x ∈ reads [] nodes ∧ x ∉ bound := by
  rw [← List.nil_append bound, reads_append_bound, List.mem_filter, decide_eq_true_iff,
    List.nil_append]

end Bound

/-! ## Places in a tree -/

/-- The body stands somewhere in the tree, in no loop that binds the name. -/
inductive Within (x : String) : (nodes body : List Node) → Prop where
  | refl (nodes : List Node) : Within x nodes nodes
  | branch {nodes body : List Node} {branches : List Branch} {branch : Branch}
      (h : .conditional branches ∈ nodes) (hbranch : branch ∈ branches)
      (hbody : Within x branch.body body) : Within x nodes body
  | loop {nodes inner body : List Node} {head : LoopHead} {bindings : List Binding}
      (h : .loop head bindings inner ∈ nodes) (hhead : x ∉ head.names)
      (hbindings : x ∉ bindings.map (·.name)) (hbody : Within x inner body) : Within x nodes body
  | existence {nodes inner body : List Node} {expression : String}
      (h : .existence expression inner ∈ nodes) (hbody : Within x inner body) : Within x nodes body
  | content {nodes content body : List Node} {tag : String} {attributes : List Attribute}
      {slots : List NamedSlot} (h : .component tag attributes content slots ∈ nodes)
      (hbody : Within x content body) : Within x nodes body
  | slot {nodes content body : List Node} {tag : String} {attributes : List Attribute}
      {slots : List NamedSlot} {slot : NamedSlot}
      (h : .component tag attributes content slots ∈ nodes) (hslot : slot ∈ slots)
      (hbody : Within x slot.body body) : Within x nodes body

/-- **A tree reads what a body in it reads**, unless a loop around the body binds it. -/
theorem Within.mem_reads {x : String} {nodes body : List Node} (h : Within x nodes body)
    (hx : x ∈ reads [] body) : x ∈ reads [] nodes := by
  induction h with
  | refl => exact hx
  | branch h hbranch _ ih =>
    refine reads_subset [] h ?_
    rw [Node.reads, branchesRead_eq_flatMap]
    exact List.mem_flatMap.mpr ⟨_, hbranch, List.mem_append_right _ (ih hx)⟩
  | loop h hhead hbindings _ ih =>
    refine reads_subset [] h (List.mem_append_right _ (Template.mem_reads.mpr ⟨ih hx, ?_⟩))
    simpa using ⟨by simpa using hbindings, hhead⟩
  | existence h _ ih => exact reads_subset [] h (List.mem_append_right _ (ih hx))
  | content h _ ih =>
    exact reads_subset [] h (List.mem_append_left _ (List.mem_append_right _ (ih hx)))
  | slot h hslot _ ih =>
    refine reads_subset [] h (List.mem_append_right _ ?_)
    rw [slotsRead_eq_flatMap]
    exact List.mem_flatMap.mpr ⟨_, hslot, ih hx⟩

end ViewCompiler.Template
