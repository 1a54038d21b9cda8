import ViewCompiler.Proofs.Expression.Idempotence
import ViewCompiler.Proofs.Template.Accesses
import ViewCompiler.Proofs.Template.Reading

/-!
# Trees whose accesses are written as calls twice

A tree keeps the places of its expressions when their accesses are written as calls, so doing this
twice is doing it once exactly if it is for each expression (`withCalls_withCalls_iff`), and that
is told by where the accesses of the expression stand (`idempotent_iff`).
-/

namespace ViewCompiler.Template

open Expression

/-- Writing the accesses of the expression as calls leaves nothing to do. -/
def IsSettled (expression : String) : Prop :=
  callAccesses (callAccesses expression) = callAccesses expression

/-- The attributes of a component with calls, in which calls are written again. -/
theorem mapExpression_callAccesses_iff (attributes : List Attribute) :
    (attributes.map (·.mapExpression callAccesses)).map (·.mapExpression callAccesses) =
        attributes.map (·.mapExpression callAccesses) ↔
      ∀ e ∈ attributes.filterMap Attribute.expression?, IsSettled e := by
  rw [List.map_map, List.map_inj_left]
  simp only [List.mem_filterMap]
  refine ⟨?_, fun h a ha => ?_⟩
  · rintro h e ⟨⟨bound, name, value⟩, ha, hvalue⟩
    have hsame := h _ ha
    cases bound with
    | false => cases hvalue
    | true =>
      obtain rfl : value = some e := hvalue
      simpa [Attribute.mapExpression, IsSettled] using hsame
  · obtain ⟨bound, name, value⟩ := a
    cases bound with
    | false => rfl
    | true =>
      cases value with
      | none => rfl
      | some e =>
        have he : IsSettled e := h e ⟨_, ha, rfl⟩
        simp only [Function.comp_apply, Attribute.mapExpression, if_true, Option.map_some]
        rw [he]

mutual

/-- A second pass leaves a node exactly when all its expressions with accesses are settled. -/
theorem Node.withCalls_withCalls_iff (node : Node) :
    node.withCalls.withCalls = node.withCalls ↔ ∀ e ∈ node.accessing, IsSettled e := by
  match node with
  | .text _ | .comment _ | .host .. => exact iff_of_true rfl fun e he => nomatch he
  | .echo expression _ | .flag _ expression =>
    simp [Node.withCalls, Node.accessing, IsSettled]
  | .conditional branches =>
    simp only [Node.withCalls, Node.accessing, Node.conditional.injEq]
    exact branchesWithCalls_withCalls_iff branches
  | .existence expression body =>
    simp only [Node.withCalls, Node.accessing, Node.existence.injEq, List.forall_mem_cons]
    exact and_congr Iff.rfl (withCalls_withCalls_iff body)
  | .loop head bindings body =>
    simp only [Node.withCalls, Node.accessing, Node.loop.injEq, List.forall_mem_cons,
      LoopHead.mk.injEq, true_and, and_true]
    exact and_congr Iff.rfl (withCalls_withCalls_iff body)
  | .component tag attributes content slots =>
    simp only [Node.withCalls, Node.accessing, Node.component.injEq, List.forall_mem_append,
      true_and, and_assoc]
    exact and_congr (mapExpression_callAccesses_iff attributes)
      (and_congr (withCalls_withCalls_iff content) (slotsWithCalls_withCalls_iff slots))

/-- Writing calls twice is writing them once exactly if it is for each expression of the tree. -/
theorem withCalls_withCalls_iff (nodes : List Node) :
    withCalls (withCalls nodes) = withCalls nodes ↔ ∀ e ∈ accessing nodes, IsSettled e := by
  match nodes with
  | [] => exact iff_of_true rfl fun e he => nomatch he
  | node :: nodes =>
    rw [withCalls, withCalls, accessing, List.cons.injEq, List.forall_mem_append]
    exact and_congr (Node.withCalls_withCalls_iff node) (withCalls_withCalls_iff nodes)

/-- The same of the branches of a conditional. -/
theorem branchesWithCalls_withCalls_iff (branches : List Branch) :
    branchesWithCalls (branchesWithCalls branches) = branchesWithCalls branches ↔
      ∀ e ∈ branchesAccessing branches, IsSettled e := by
  match branches with
  | [] => exact iff_of_true rfl fun e he => nomatch he
  | ⟨condition, body⟩ :: branches =>
    have hcondition : (condition.map callAccesses).map callAccesses = condition.map callAccesses ↔
        ∀ e ∈ condition.toList, IsSettled e := by
      cases condition <;> simp [IsSettled]
    simp only [branchesWithCalls, branchesAccessing, List.cons.injEq, Branch.mk.injEq,
      List.forall_mem_append]
    exact and_congr (and_congr hcondition (withCalls_withCalls_iff body))
      (branchesWithCalls_withCalls_iff branches)

/-- The same of the slots of a component. -/
theorem slotsWithCalls_withCalls_iff (slots : List NamedSlot) :
    slotsWithCalls (slotsWithCalls slots) = slotsWithCalls slots ↔
      ∀ e ∈ slotsAccessing slots, IsSettled e := by
  match slots with
  | [] => exact iff_of_true rfl fun e he => nomatch he
  | ⟨name, body⟩ :: slots =>
    simp only [slotsWithCalls, slotsAccessing, List.cons.injEq, NamedSlot.mk.injEq,
      List.forall_mem_append, true_and]
    exact and_congr (withCalls_withCalls_iff body) (slotsWithCalls_withCalls_iff slots)
end

/-- **Writing accesses as calls a second time changes nothing exactly if no access stands directly
behind a variable and a dot** (with no open single quote before it), in an expression and in all
expressions of a tree. -/
theorem idempotent_iff (expression : String) (nodes : List Node) :
    (callAccesses (callAccesses expression) = callAccesses expression ↔ ¬ IsJoined expression) ∧
    (withCalls (withCalls nodes) = withCalls nodes ↔ ∀ e ∈ accessing nodes, ¬ IsJoined e) := by
  refine ⟨callAccesses_callAccesses_iff, (withCalls_withCalls_iff nodes).trans ?_⟩
  exact forall₂_congr fun _ _ => callAccesses_callAccesses_iff

/-- A variable joined to an access by a dot: the first rewriting puts the function's name behind
the dot, and the second takes it for the path of the variable. -/
theorem exists_not_idempotent :
    callAccesses "$x.$a.b" = "$x.data_get($a, 'b')" ∧
      callAccesses "$x.data_get($a, 'b')" = "data_get($x, 'data_get')($a, 'b')" ∧
      ∃ nodes, parse "\x7b\x7b $x.$a.b \x7d\x7d" = .ok nodes ∧
        withCalls (withCalls nodes) ≠ withCalls nodes := by
  have hfirst : callAccesses "$x.$a.b" = "$x.data_get($a, 'b')" := by decide +kernel
  have hsecond : callAccesses "$x.data_get($a, 'b')" = "data_get($x, 'data_get')($a, 'b')" := by
    decide +kernel
  have hparse : (parse "\x7b\x7b $x.$a.b \x7d\x7d").toOption.any
      (fun nodes => decide ("$x.$a.b" ∈ accessing nodes)) = true := by
    decide +kernel
  obtain ⟨nodes, hnodes, hmem⟩ := exists_parse_of_any hparse
  refine ⟨hfirst, hsecond, nodes, hnodes, fun h => ?_⟩
  have hsettled := (withCalls_withCalls_iff nodes).mp h _ (of_decide_eq_true hmem)
  rw [IsSettled, hfirst, hsecond] at hsettled
  exact absurd hsettled (by decide)

end ViewCompiler.Template
