import ViewCompiler.Proofs.Template.Forms
import ViewCompiler.Proofs.Template.Outline

/-!
# How deep slots are nested

Slots are compiled by recursion on how many of them are nested in each other. Neither trimming the
content of a slot, nor taking line ends away, nor deduplication nests them deeper.
-/

namespace ViewCompiler.Template

/-! ## Depths of lists -/

/-- The slots of a list are nested no deeper than those of each node. -/
theorem slotDepth_le_iff {nodes : List Node} {n : Nat} :
    slotDepth nodes ≤ n ↔ ∀ node ∈ nodes, node.slotDepth ≤ n := by
  induction nodes with
  | nil => simp [slotDepth]
  | cons node nodes ih => rw [slotDepth, Nat.max_le, ih, List.forall_mem_cons]

/-- The same of the slots of a component. -/
theorem slotsSlotDepth_le_iff {slots : List NamedSlot} {n : Nat} :
    slotsSlotDepth slots ≤ n ↔ ∀ s ∈ slots, slotDepth s.body ≤ n := by
  induction slots with
  | nil => simp [slotsSlotDepth]
  | cons s slots ih =>
    obtain ⟨name, body⟩ := s
    rw [slotsSlotDepth, Nat.max_le, ih, List.forall_mem_cons]

/-! ## Trimming -/

/-- Trimming the first text nests slots no differently. -/
theorem slotDepth_trimFirst (nodes : List Node) :
    slotDepth (trimFirst nodes) = slotDepth nodes := by
  fun_cases trimFirst nodes with
  | case1 => rfl
  | case2 => rfl

/-- Trimming the last text nests slots no differently. -/
theorem slotDepth_trimLast (nodes : List Node) : slotDepth (trimLast nodes) = slotDepth nodes := by
  fun_induction trimLast nodes with
  | case1 => rfl
  | case2 => rfl
  | case3 node nodes _ ih => rw [slotDepth, slotDepth, ih]

/-- Trimming nests no slots deeper. -/
theorem slotDepth_trimSlot_le (nodes : List Node) :
    slotDepth (trimSlot nodes) ≤ slotDepth nodes := by
  rw [← slotDepth_trimFirst nodes, ← slotDepth_trimLast (trimFirst nodes), slotDepth_le_iff]
  exact fun node hnode => slotDepth_le_iff.mp (Nat.le_refl _) node (List.mem_of_mem_filter hnode)

/-! ## Line ends -/

mutual

/-- A visible node has its slots nested as the node. -/
theorem slotDepth_visibleNode (node : Node) : node.visible.slotDepth = node.slotDepth := by
  match node with
  | .text _ | .comment _ | .echo .. | .host .. | .flag .. | .component .. => rfl
  | .conditional branches => exact slotDepth_visibleBranches branches
  | .loop head bindings body => exact slotDepth_visible true body
  | .existence expression body => exact slotDepth_visible true body

/-- What is printed nests slots as deep as the tree. -/
theorem slotDepth_visible (afterTag : Bool) (nodes : List Node) :
    slotDepth (visible afterTag nodes) = slotDepth nodes := by
  match nodes with
  | [] => rfl
  | .text content :: nodes =>
    have htext : ∀ rest, slotDepth (visibleText afterTag content ++ rest) = slotDepth rest := by
      intro rest
      rcases visibleText_cases afterTag content with hnone | ⟨printed, -, hprinted⟩
      · rw [hnone]
        rfl
      · rw [hprinted]
        exact Nat.zero_max _
    rw [visible, htext, slotDepth_visible false nodes]
    exact (Nat.zero_max _).symm
  | .comment _ :: nodes | .echo .. :: nodes | .host .. :: nodes | .flag .. :: nodes
  | .component .. :: nodes | .conditional _ :: nodes | .loop .. :: nodes
  | .existence .. :: nodes =>
    rw [visible, slotDepth, slotDepth, slotDepth_visibleNode, slotDepth_visible true nodes]
    exact fun _ h => nomatch h

/-- The same of the branches of a conditional. -/
theorem slotDepth_visibleBranches (branches : List Branch) :
    branchesSlotDepth (visibleBranches branches) = branchesSlotDepth branches := by
  match branches with
  | [] => rfl
  | ⟨condition, body⟩ :: branches =>
    rw [visibleBranches, branchesSlotDepth, branchesSlotDepth, slotDepth_visible true body,
      slotDepth_visibleBranches branches]
end

/-! ## Deduplication -/

mutual

/-- The outline of a node has its slots nested as the node. -/
theorem Node.slotDepth_outline (node : Node) : node.outline.slotDepth = node.slotDepth := by
  match node with
  | .text _ | .comment _ | .echo .. | .host .. | .flag .. | .component .. => rfl
  | .conditional branches => exact slotDepth_branchesOutline branches
  | .loop head bindings body => exact slotDepth_outline body
  | .existence expression body => exact slotDepth_outline body

/-- The outline nests slots as deep as the tree. -/
theorem slotDepth_outline (nodes : List Node) : slotDepth (outline nodes) = slotDepth nodes := by
  match nodes with
  | [] => rfl
  | node :: nodes =>
    rw [outline, slotDepth, slotDepth, Node.slotDepth_outline, slotDepth_outline nodes]

/-- The same of the branches of a conditional. -/
theorem slotDepth_branchesOutline (branches : List Branch) :
    branchesSlotDepth (branchesOutline branches) = branchesSlotDepth branches := by
  match branches with
  | [] => rfl
  | ⟨condition, body⟩ :: branches =>
    rw [branchesOutline, branchesSlotDepth, branchesSlotDepth, slotDepth_outline body,
      slotDepth_branchesOutline branches]
end

/-- Deduplication nests no slots deeper. -/
theorem slotDepth_dedup (nodes : List Node) (taken : Names) :
    slotDepth ((dedup nodes).run taken).1.1 = slotDepth nodes := by
  rw [← slotDepth_outline, outline_dedup, slotDepth_outline]

end ViewCompiler.Template
