import ViewCompiler.Proofs.Compile.Reads
import ViewCompiler.Proofs.Compile.Totality
import ViewCompiler.Proofs.Template.DedupReads
import ViewCompiler.Proofs.Template.Meaning

/-!
# What the closure of a slot captures

The names that a closure captures are those that are free in the content before deduplication, but
the closure's body is the deduplicated content behind its local variables. Where the calls of the
content are settled the two agree (`captures_slot`). Where a call on a loop's variable is itself
the argument of a repeated call they do not: a local variable of the closure then reads a variable
that the loop in the body binds (`exists_not_captures_slot`).
-/

namespace ViewCompiler.Php

open Template (Binding SlotForm)

/-- The form of the value of a slot. -/
def SlotCode.form : SlotCode → SlotForm
  | .literal _ => .literal
  | .expression _ => .expression
  | .statements .. => .statements
  | .buffered .. => .buffered

/-- The local variables ahead of the body of a closure. -/
def SlotCode.locals : SlotCode → List Binding
  | .statements _ locals _ => locals
  | .buffered _ locals _ => locals
  | _ => []

end ViewCompiler.Php

namespace ViewCompiler.Compile

open Expression (mentioned accessor)
open Php
open Template

/-- **A closure captures what it reads**: each local variable sees what it is made from, as a
captured name, as one that is the same in every scope, or as a local variable before it; the
deduplicated body sees its free variables; and no name is captured that is not free in the content.
-/
structure Captures (content : List Node) (uses : List String) (deduped : List Node)
    (locals : List Binding) : Prop where
  locals_see : ∀ earlier b later, locals = earlier ++ b :: later →
    ∀ x ∈ mentioned b.value, x ∈ uses ∨ x ∈ uncapturable ∨ x ∈ earlier.map (·.name)
  body_sees : ∀ x ∈ freeVariables deduped [],
    x ∈ uses ∨ x ∈ uncapturable ∨ x ∈ locals.map (·.name)
  uses_free : ∀ x ∈ uses, x ∈ freeVariables content []

/-- A free variable is captured unless no closure may capture it. -/
theorem mem_captured_or {nodes : List Node} {x : String} (hx : x ∈ reads [] nodes) :
    x ∈ captured nodes [] ∨ x ∈ uncapturable := by
  by_cases hfixed : x ∈ uncapturable
  · exact .inr hfixed
  · exact .inl (mem_captured.mpr ⟨hx, hfixed⟩)

/-- Content whose calls are settled is captured as it is read. -/
theorem captures_dedup {content : List Node} {repeats owned : Expression.DottedPath → Prop}
    (h : CallsSettled repeats owned content)
    (hlocal : ∀ a, repeats a → String.ofList a.name ∉ localNames content) (taken : Names) :
    Captures content (captured content []) ((dedup content).run taken).1.1
      ((dedup content).run taken).1.2 where
  locals_see earlier b later hlocals x hx := by
    have hb : b ∈ ((dedup content).run taken).1.2 := by
      rw [hlocals]
      exact List.mem_append_right _ List.mem_cons_self
    exact (mem_captured_or (h.mentioned_of_mem_dedup hlocal taken hb hx)).imp_right .inl
  body_sees x hx := by
    rcases h.reads_dedup taken (mem_freeVariables.mp hx) with hx | hx
    · exact (mem_captured_or hx).imp_right .inl
    · exact .inr (.inr hx)
  uses_free x hx := mem_freeVariables.mpr (mem_captured.mp hx).1

/-- A slot that becomes a closure with a body captures the free variables of its content, and its
local variables are those of the deduplicated content. -/
theorem exists_run_slot (path : String) {nodes : List Node} (taken : Names)
    (hform : slotForm (trimSlot nodes) = .statements ∨ slotForm (trimSlot nodes) = .buffered) :
    ∃ code left, (slot path nodes).run taken = .ok (code, left) ∧
      code.form = slotForm (trimSlot nodes) ∧ code.uses = captured (trimSlot nodes) [] ∧
      code.locals = ((dedup (trimSlot nodes)).run taken).1.2 := by
  obtain ⟨code, left, hrun⟩ := succeeds_slotCode path (Nat.lt_succ_self (slotDepth nodes)) taken
  refine ⟨code, left, hrun, ?_⟩
  rw [slotCode] at hrun
  rcases hform with hform | hform
  all_goals
    rw [hform] at hrun ⊢
    dsimp only at hrun
    rw [run_bind rfl] at hrun
    obtain ⟨body, between, -, hcode⟩ := exists_of_run_bind hrun
    cases hcode
    exact ⟨rfl, rfl, rfl⟩

/-- **The closure of a slot captures what it reads**, if every call that occurs more than once in
the content stands by itself, a variable for a call on a loop's variable is part of no other call,
and no call that occurs more than once is on a local variable of a loop. -/
theorem captures_slot (path : String) {nodes : List Node} (taken : Names)
    (hform : slotForm (trimSlot nodes) = .statements ∨ slotForm (trimSlot nodes) = .buffered)
    (hsettled : ∀ e ∈ expressions (trimSlot nodes),
      Settled (fun a => 1 < (calls (trimSlot nodes)).count a)
        (fun a => String.ofList a.name ∈ rebound (trimSlot nodes)) (accessor.pieces e.toList))
    (hlocal : ∀ a, 1 < (calls (trimSlot nodes)).count a →
      String.ofList a.name ∉ localNames (trimSlot nodes)) :
    ∃ code left, (slot path nodes).run taken = .ok (code, left) ∧
      code.form = slotForm (trimSlot nodes) ∧
      code.locals = ((dedup (trimSlot nodes)).run taken).1.2 ∧
      Captures (trimSlot nodes) code.uses ((dedup (trimSlot nodes)).run taken).1.1
        code.locals := by
  obtain ⟨code, left, hrun, hcode, huses, hlocals⟩ := exists_run_slot path taken hform
  refine ⟨code, left, hrun, hcode, hlocals, ?_⟩
  rw [huses, hlocals]
  exact captures_dedup ⟨hsettled, fun _ => id, fun _ => id⟩ hlocal taken

/-- A slot with a repeated call ahead of a loop and one in it. -/
def repeatingSlot : List Node :=
  [.echo "data_get($x, 'a')" true, .echo "data_get($x, 'a')" true,
    .loop ⟨"$us", "u", none⟩ [] [.echo "data_get($u, 'n')" true, .echo "data_get($u, 'n')" true]]

/-- The call ahead of the loop becomes a local variable of the closure, and its variable is
captured.
-/
theorem captures_slot_repeatingSlot :
    ∃ code left, (slot defaultNamespace repeatingSlot).run [] = .ok (code, left) ∧
      code.form = slotForm (trimSlot repeatingSlot) ∧
      code.locals = ((dedup (trimSlot repeatingSlot)).run []).1.2 ∧
      Captures (trimSlot repeatingSlot) code.uses ((dedup (trimSlot repeatingSlot)).run []).1.1
        code.locals := by
  have hform : slotForm (trimSlot repeatingSlot) = .statements := by decide +kernel
  have hplain : ((expressions (trimSlot repeatingSlot)).all fun e =>
      Template.isPlain (accessor.pieces e.toList)) = true := by decide +kernel
  have hlocal : localNames (trimSlot repeatingSlot) = [] := by decide +kernel
  refine captures_slot defaultNamespace [] (.inl hform)
    (fun e he => settled_of_isPlain (List.all_eq_true.mp hplain e he)) fun a _ => ?_
  rw [hlocal]
  exact List.not_mem_nil

/-- **A closure does not always capture what it reads.** -/
theorem exists_not_captures_slot :
    ∃ nodes, parse nestedCallTemplate = .ok nodes ∧
      slotForm (trimSlot (withCalls nodes)) = .statements ∧
      ∃ code left, (slot defaultNamespace (withCalls nodes)).run [] = .ok (code, left) ∧
        code.locals = ((dedup (trimSlot (withCalls nodes))).run []).1.2 ∧
        ¬ Captures (trimSlot (withCalls nodes)) code.uses
          ((dedup (trimSlot (withCalls nodes))).run []).1.1 code.locals := by
  have hcheck : (match parse nestedCallTemplate with
      | .ok nodes => slotForm (trimSlot (withCalls nodes)) = .statements &&
        match ((dedup (trimSlot (withCalls nodes))).run []).1.2 with
        | b :: _ => (mentioned b.value).any fun x =>
          x ∉ captured (trimSlot (withCalls nodes)) [] && x ∉ uncapturable
        | [] => false
      | .error _ => false) = true := by decide +kernel
  cases hparse : parse nestedCallTemplate with
  | error e =>
    rw [hparse] at hcheck
    cases hcheck
  | ok nodes =>
    rw [hparse] at hcheck
    obtain ⟨hform, hlocals⟩ := Bool.and_eq_true_iff.mp hcheck
    have hform := of_decide_eq_true hform
    obtain ⟨code, left, hrun, -, huses, hcode⟩ := exists_run_slot defaultNamespace [] (.inl hform)
    refine ⟨nodes, rfl, hform, code, left, hrun, hcode, fun hcaptures => ?_⟩
    rw [huses, hcode] at hcaptures
    split at hlocals
    · rename_i b later heq
      obtain ⟨x, hx, hmissing⟩ := List.any_eq_true.mp hlocals
      rw [Bool.and_eq_true, decide_eq_true_iff, decide_eq_true_iff] at hmissing
      rcases hcaptures.locals_see [] b later heq x hx with h | h | h
      · exact hmissing.1 h
      · exact hmissing.2 h
      · cases h
    · cases hlocals

end ViewCompiler.Compile
