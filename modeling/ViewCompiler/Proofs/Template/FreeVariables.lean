import Mathlib.Data.List.Sort
import ViewCompiler.Proofs.Keyed
import ViewCompiler.Proofs.Template.Reads

/-!
# Free variables

A name occurs free in a tree if some expression mentions it and no loop on the way there binds it
(`OccursFree`). A loop binds its variables in the values of its local variables and in its body,
but not in its collection, and its local variables in the body only (`Node.Mentions`, `Within`).

What a tree reads is what occurs free in it (`mem_reads_nil_iff`). With the order of names, this
gives the free variables of a tree for whatever is bound around it
(`mem_freeVariables_iff_occursFree`).
-/

namespace ViewCompiler.Template

open Expression (mentioned)

/-! ## Names in order -/

/-- Names are sorted in the order of strings. -/
theorem nameLe_iff {a b : String} : nameLe a b = true ↔ a ≤ b := by
  rw [nameLe, Bool.not_eq_true', decide_eq_false_iff_not, String.not_lt]

/-- The order of names is transitive. -/
theorem nameLe_trans (a b c : String) (hab : nameLe a b = true) (hbc : nameLe b c = true) :
    nameLe a c = true := by
  rw [nameLe_iff] at *
  exact String.le_trans hab hbc

/-- The order of names is total. -/
theorem nameLe_total (a b : String) : (nameLe a b || nameLe b a) = true := by
  rw [Bool.or_eq_true, nameLe_iff, nameLe_iff]
  exact String.le_total a b

/-- Names in order are there once. -/
theorem pairwise_sorted (names : List String) : (sorted names).Pairwise (· < ·) := by
  have hordered : (sorted names).Pairwise fun a b => nameLe a b = true :=
    List.pairwise_mergeSort nameLe_trans nameLe_total _
  have hnodup : (sorted names).Nodup :=
    (List.mergeSort_perm _ _).nodup_iff.mpr (nodup_eraseDups names)
  refine hordered.imp₂ (fun a b hle hne => ?_) hnodup
  refine Decidable.byContradiction fun hlt => hne ?_
  exact String.le_antisymm (nameLe_iff.mp hle) (String.not_lt.mp hlt)

/-- Sorting keeps the names. -/
theorem mem_sorted {names : List String} {x : String} : x ∈ sorted names ↔ x ∈ names := by
  simp [sorted]

/-- Names are left out before or after they are put in order. -/
theorem sorted_filter (p : String → Bool) (names : List String) :
    sorted (names.filter p) = (sorted names).filter p := by
  -- both sides ascend strictly, so they are the same list if they have the same members
  refine (pairwise_sorted _).eq_of_mem_iff ((pairwise_sorted names).filter p) fun x => ?_
  rw [mem_sorted, List.mem_filter, List.mem_filter, mem_sorted]

/-! ## Occurrences -/

section Occurrences

variable {x : String}

/-- The node mentions the name in an expression of its own, outside of its bodies, and does not
bind it there. -/
inductive Node.Mentions (x : String) : Node → Prop where
  | echo {expression : String} {escaped : Bool} (hx : x ∈ mentioned expression) :
      Mentions x (.echo expression escaped)
  | host {code : String} {echo : Bool} (hx : x ∈ mentioned code) : Mentions x (.host code echo)
  | condition {branches : List Branch} {branch : Branch} {condition : String}
      (hbranch : branch ∈ branches) (hcondition : branch.condition = some condition)
      (hx : x ∈ mentioned condition) : Mentions x (.conditional branches)
  | collection {head : LoopHead} {bindings : List Binding} {body : List Node}
      (hx : x ∈ mentioned head.collection) : Mentions x (.loop head bindings body)
  | binding {head : LoopHead} {bindings : List Binding} {body : List Node} {b : Binding}
      (hhead : x ∉ head.names) (hb : b ∈ bindings) (hx : x ∈ mentioned b.value) :
      Mentions x (.loop head bindings body)
  | existence {expression : String} {body : List Node} (hx : x ∈ mentioned expression) :
      Mentions x (.existence expression body)
  | flag {kind expression : String} (hx : x ∈ mentioned expression) :
      Mentions x (.flag kind expression)
  | boundAttribute {tag : String} {attributes : List Attribute} {content : List Node}
      {slots : List NamedSlot} {a : Attribute} {expression : String} (ha : a ∈ attributes)
      (hexpression : a.expression? = some expression) (hx : x ∈ mentioned expression) :
      Mentions x (.component tag attributes content slots)

/-- The name occurs free in the tree: a node at some place in the tree mentions it, and no loop
around the place binds it. -/
def OccursFree (x : String) (nodes : List Node) : Prop :=
  ∃ body, Within x nodes body ∧ ∃ node ∈ body, node.Mentions x

/-- What a node of the list mentions itself occurs free in the list. -/
theorem OccursFree.of_mentions {nodes : List Node} {node : Node} (hnode : node ∈ nodes)
    (h : node.Mentions x) : OccursFree x nodes :=
  ⟨nodes, .refl nodes, node, hnode, h⟩

/-- What occurs free in a tree occurs free in every tree that has its nodes. -/
theorem OccursFree.mono {nodes others : List Node} (h : OccursFree x nodes)
    (hsub : nodes ⊆ others) : OccursFree x others := by
  obtain ⟨body, hbody, node, hnode, hmentions⟩ := h
  cases hbody with
  | refl => exact .of_mentions (hsub hnode) hmentions
  | branch h hbranch hbody => exact ⟨body, .branch (hsub h) hbranch hbody, node, hnode, hmentions⟩
  | loop h hhead hbindings hbody =>
    exact ⟨body, .loop (hsub h) hhead hbindings hbody, node, hnode, hmentions⟩
  | existence h hbody => exact ⟨body, .existence (hsub h) hbody, node, hnode, hmentions⟩
  | content h hbody => exact ⟨body, .content (hsub h) hbody, node, hnode, hmentions⟩
  | slot h hslot hbody => exact ⟨body, .slot (hsub h) hslot hbody, node, hnode, hmentions⟩

/-! ## What a tree reads -/

/-- With nothing bound every mentioned name is unbound. -/
theorem mem_unbound_nil {expression : String} :
    x ∈ unbound [] expression ↔ x ∈ mentioned expression := by
  rw [unbound_nil]

/-- A node reads what it mentions. -/
theorem Node.Mentions.mem_reads {node : Node} (h : node.Mentions x) : x ∈ node.reads [] := by
  cases h with
  | echo hx | host hx | flag hx => exact mem_unbound_nil.mpr hx
  | condition hbranch hcondition hx =>
    rw [Node.reads, branchesRead_eq_flatMap]
    refine List.mem_flatMap.mpr ⟨_, hbranch, List.mem_append_left _ ?_⟩
    exact List.mem_flatMap.mpr ⟨_, Option.mem_toList.mpr hcondition, mem_unbound_nil.mpr hx⟩
  | collection hx => exact List.mem_append_left _ (List.mem_append_left _ (mem_unbound_nil.mpr hx))
  | binding hhead hb hx =>
    refine List.mem_append_left _ (List.mem_append_right _ (List.mem_flatMap.mpr ⟨_, hb, ?_⟩))
    exact mem_unbound.mpr ⟨hx, by rwa [List.append_nil]⟩
  | existence hx => exact List.mem_append_left _ (mem_unbound_nil.mpr hx)
  | boundAttribute ha hexpression hx =>
    have hvalue := List.mem_filterMap.mpr ⟨_, ha, hexpression⟩
    refine List.mem_append_left _ (List.mem_append_left _ ?_)
    exact List.mem_flatMap.mpr ⟨_, hvalue, mem_unbound_nil.mpr hx⟩

/-- A tree reads what occurs free in it. -/
theorem OccursFree.mem_reads {nodes : List Node} (h : OccursFree x nodes) :
    x ∈ reads [] nodes := by
  obtain ⟨body, hbody, node, hnode, hmentions⟩ := h
  exact hbody.mem_reads (reads_subset [] hnode hmentions.mem_reads)

mutual

/-- What a node of the list reads occurs free in the list. -/
theorem Node.occursFree_of_mem_reads {nodes : List Node} {node : Node} (hnode : node ∈ nodes)
    (hx : x ∈ node.reads []) : OccursFree x nodes := by
  match node with
  | .text _ | .comment _ => cases hx
  | .echo .. => exact .of_mentions hnode (.echo (mem_unbound_nil.mp hx))
  | .host .. => exact .of_mentions hnode (.host (mem_unbound_nil.mp hx))
  | .flag .. => exact .of_mentions hnode (.flag (mem_unbound_nil.mp hx))
  | .conditional branches =>
    obtain ⟨branch, hbranch, hx | ⟨body, hbody, hmentions⟩⟩ := exists_of_mem_branchesRead hx
    · obtain ⟨condition, hcondition, hx⟩ := hx
      exact .of_mentions hnode (.condition hbranch hcondition hx)
    · exact ⟨body, .branch hnode hbranch hbody, hmentions⟩
  | .existence expression inner =>
    rcases List.mem_append.mp hx with hx | hx
    · exact .of_mentions hnode (.existence (mem_unbound_nil.mp hx))
    · obtain ⟨body, hbody, hmentions⟩ := occursFree_of_mem_reads hx
      exact ⟨body, .existence hnode hbody, hmentions⟩
  | .loop head bindings inner =>
    rw [Node.reads, List.append_nil] at hx
    rcases List.mem_append.mp hx with hx | hx
    · rcases List.mem_append.mp hx with hx | hx
      · exact .of_mentions hnode (.collection (mem_unbound_nil.mp hx))
      · obtain ⟨b, hb, hx⟩ := List.mem_flatMap.mp hx
        obtain ⟨hx, hhead⟩ := mem_unbound.mp hx
        exact .of_mentions hnode (.binding hhead hb hx)
    -- the body is read with all names of the loop bound
    · obtain ⟨hx, hbound⟩ := Template.mem_reads.mp hx
      rw [List.mem_append, not_or] at hbound
      obtain ⟨body, hbody, hmentions⟩ := occursFree_of_mem_reads hx
      exact ⟨body, .loop hnode hbound.2 hbound.1 hbody, hmentions⟩
  | .component tag attributes content slots =>
    rcases List.mem_append.mp hx with hx | hx
    · rcases List.mem_append.mp hx with hx | hx
      · obtain ⟨expression, hexpression, hx⟩ := List.mem_flatMap.mp hx
        obtain ⟨a, ha, hexpression⟩ := List.mem_filterMap.mp hexpression
        exact .of_mentions hnode (.boundAttribute ha hexpression (mem_unbound_nil.mp hx))
      · obtain ⟨body, hbody, hmentions⟩ := occursFree_of_mem_reads hx
        exact ⟨body, .content hnode hbody, hmentions⟩
    · obtain ⟨slot, hslot, body, hbody, hmentions⟩ := exists_of_mem_slotsRead hx
      exact ⟨body, .slot hnode hslot hbody, hmentions⟩

/-- What a tree reads occurs free in it. -/
theorem occursFree_of_mem_reads {nodes : List Node} (hx : x ∈ reads [] nodes) :
    OccursFree x nodes := by
  match nodes with
  | [] => cases hx
  | node :: nodes =>
    rcases List.mem_append.mp hx with hx | hx
    · exact Node.occursFree_of_mem_reads List.mem_cons_self hx
    · exact (occursFree_of_mem_reads hx).mono (List.subset_cons_self node nodes)

/-- What branches read is mentioned by a condition or occurs free in a body. -/
theorem exists_of_mem_branchesRead {branches : List Branch} (hx : x ∈ branchesRead [] branches) :
    ∃ branch ∈ branches,
      (∃ condition, branch.condition = some condition ∧ x ∈ mentioned condition) ∨
        OccursFree x branch.body := by
  match branches with
  | [] => cases hx
  | ⟨condition, body⟩ :: branches =>
    rcases List.mem_append.mp hx with hx | hx
    · refine ⟨_, List.mem_cons_self, ?_⟩
      rcases List.mem_append.mp hx with hx | hx
      · obtain ⟨expression, hexpression, hx⟩ := List.mem_flatMap.mp hx
        exact .inl ⟨expression, Option.mem_toList.mp hexpression, mem_unbound_nil.mp hx⟩
      · exact .inr (occursFree_of_mem_reads hx)
    · obtain ⟨branch, hbranch, h⟩ := exists_of_mem_branchesRead hx
      exact ⟨branch, List.mem_cons_of_mem _ hbranch, h⟩

/-- What slots read occurs free in the body of one of them. -/
theorem exists_of_mem_slotsRead {slots : List NamedSlot} (hx : x ∈ slotsRead [] slots) :
    ∃ slot ∈ slots, OccursFree x slot.body := by
  match slots with
  | [] => cases hx
  | ⟨_, body⟩ :: slots =>
    rcases List.mem_append.mp hx with hx | hx
    · exact ⟨_, List.mem_cons_self, occursFree_of_mem_reads hx⟩
    · obtain ⟨slot, hslot, h⟩ := exists_of_mem_slotsRead hx
      exact ⟨slot, List.mem_cons_of_mem _ hslot, h⟩
end

/-- A tree reads the names that occur free in it. -/
theorem mem_reads_nil_iff {nodes : List Node} : x ∈ reads [] nodes ↔ OccursFree x nodes :=
  ⟨occursFree_of_mem_reads, OccursFree.mem_reads⟩

end Occurrences

/-! ## Free variables -/

/-- Names that are bound around a tree are left out of its free variables, and no others. -/
theorem freeVariables_eq_filter (nodes : List Node) (bound : List String) :
    freeVariables nodes bound = (freeVariables nodes []).filter (· ∉ bound) := by
  rw [freeVariables, freeVariables, ← sorted_filter, ← reads_append_bound, List.nil_append]

/-- The free variables of two lists are those of one and of the other. -/
theorem mem_freeVariables_append {nodes others : List Node} {bound : List String} {x : String} :
    x ∈ freeVariables (nodes ++ others) bound ↔
      x ∈ freeVariables nodes bound ∨ x ∈ freeVariables others bound := by
  rw [mem_freeVariables, reads_append, List.mem_append, mem_freeVariables, mem_freeVariables]

/-- **The free variables of a tree** are the names that occur free in it and are not bound around
it. So binding names around the tree takes these away and nothing else, further nodes behind the
tree take nothing away, and neither line ends nor the blanks around the content of a slot
matter. -/
theorem mem_freeVariables_iff_occursFree (nodes : List Node) (bound : List String) :
    (∀ x, x ∈ freeVariables nodes bound ↔ x ∉ bound ∧ OccursFree x nodes) ∧
      freeVariables nodes bound = (freeVariables nodes []).filter (· ∉ bound) ∧
      (∀ others, freeVariables nodes bound ⊆ freeVariables (nodes ++ others) bound) ∧
      (∀ afterTag, freeVariables (visible afterTag nodes) bound = freeVariables nodes bound) ∧
      freeVariables (trimSlot nodes) bound = freeVariables nodes bound := by
  refine ⟨fun x => ?_, freeVariables_eq_filter nodes bound, fun others x hx => ?_,
    fun afterTag => ?_, ?_⟩
  · rw [mem_freeVariables, mem_reads, mem_reads_nil_iff, and_comm]
  · exact mem_freeVariables_append.mpr (.inl hx)
  · rw [freeVariables, freeVariables, reads_visible]
  · rw [freeVariables, freeVariables, reads_trimSlot]

/-- A loop over its own item with a local variable that reads itself: both names are free, the item
in the collection and the local variable in its own value. -/
example : freeVariables [.loop ⟨"$u", "u", none⟩ [⟨"v", "$u . $v"⟩] [.echo "$u . $v" true]] [] =
    ["u", "v"] := by
  cbv

end ViewCompiler.Template
