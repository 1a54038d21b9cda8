import ViewCompiler.Proofs.Php.Execution
import ViewCompiler.Proofs.Template.Sharing

/-!
# Code that reads some variables only

Two stores may agree on some names, and on the variables that are the same in every scope. An
expression or the value of a slot reads only these names if it gives the same in all such stores. A
closure over the names is called with such a store.
-/

namespace ViewCompiler.Php

open Expression (mentioned)
open Template (Store uncapturable eval_congr)

variable {machine : Machine} {names : List String} {s s' : Store machine.Value}

/-! ## Stores that agree -/

/-- The stores agree on names, and on the variables that are the same in every scope. -/
def AgreeOn (names : List String) (s s' : Store machine.Value) : Prop :=
  ∀ x, x ∈ names ∨ x ∈ uncapturable → s x = s' x

/-- Stores that agree on names agree on fewer of them. -/
theorem AgreeOn.mono {fewer : List String} (h : AgreeOn names s s') (hsub : fewer ⊆ names) :
    AgreeOn fewer s s' := fun x hx => h x (hx.imp_left fun hmem => hsub hmem)

/-- An expression has one value in stores that agree on what it mentions. -/
theorem AgreeOn.eval_eq (h : AgreeOn names s s') {expression : String}
    (hsub : mentioned expression ⊆ names) :
    machine.eval expression s = machine.eval expression s' :=
  eval_congr fun x hx => h x (.inl (hsub hx))

/-- A closure that captures some of the names is called with the same variables. -/
theorem AgreeOn.closed_eq (h : AgreeOn names s s') {uses : List String} (hsub : uses ⊆ names) :
    machine.closed uses s = machine.closed uses s' := by
  funext x
  unfold Machine.closed
  split
  · rename_i hx
    exact h x (hx.imp_left fun hmem => hsub hmem)
  · rfl

/-- A closure that captures all the names but those that no closure may capture. -/
theorem agreeOn_closed {uses : List String} (h : ∀ x ∈ names, x ∉ uncapturable → x ∈ uses)
    (s : Store machine.Value) : AgreeOn names s (machine.closed uses s) := by
  intro x hx
  by_cases hfixed : x ∈ uncapturable
  · exact (if_pos (.inr hfixed)).symm
  · have hname := hx.resolve_right hfixed
    exact (if_pos (.inl (h x hname hfixed))).symm

/-! ## Code that reads some variables only -/

variable (machine names)

/-- The expression prints the same in stores that agree on the names. -/
def Expr.Reads (value : Expr) : Prop :=
  ∀ s s' : Store machine.Value, AgreeOn names s s' → value.acts machine s = value.acts machine s'

/-- The value of a slot is the same in stores that agree on the names. -/
def SlotCode.Reads (value : SlotCode) : Prop :=
  ∀ s s' : Store machine.Value, AgreeOn names s s' → value.yield machine s = value.yield machine s'

variable {machine names}

/-- An expression that reads some names reads no others than more names. -/
theorem Expr.Reads.mono {value : Expr} {fewer : List String} (h : value.Reads machine fewer)
    (hsub : fewer ⊆ names) : value.Reads machine names := fun s s' hs => h s s' (hs.mono hsub)

/-- A slot's value that reads some names reads no others than more names. -/
theorem SlotCode.Reads.mono {value : SlotCode} {fewer : List String}
    (h : value.Reads machine fewer)
    (hsub : fewer ⊆ names) : value.Reads machine names := fun s s' hs => h s s' (hs.mono hsub)

/-- Values act alike in stores that agree on what they read. -/
theorem actsOfAll_congr {values : List Expr} (h : ∀ v ∈ values, v.Reads machine names)
    (hs : AgreeOn names s s') : actsOfAll machine s values = actsOfAll machine s' values := by
  induction values with
  | nil => simp only [actsOfAll]
  | cons v values ih =>
    rw [List.forall_mem_cons] at h
    rw [actsOfAll, actsOfAll, h.1 s s' hs, ih h.2]

/-- Named slots yield the same in stores that agree on what they read. -/
theorem slotYields_congr {slots : List SlotArgument}
    (h : ∀ slot ∈ slots, slot.value.Reads machine names) (hs : AgreeOn names s s') :
    slotYields machine s slots = slotYields machine s' slots := by
  induction slots with
  | nil => simp only [slotYields]
  | cons slot slots ih =>
    obtain ⟨name, value⟩ := slot
    rw [List.forall_mem_cons] at h
    rw [slotYields, slotYields, h.1 s s' hs, ih h.2]

/-- A default slot yields the same in stores that agree on what it reads. -/
theorem contentYield_congr {content : Option SlotCode}
    (h : ∀ value ∈ content, value.Reads machine names) (hs : AgreeOn names s s') :
    contentYield machine s content = contentYield machine s' content := by
  cases content with
  | none => simp only [contentYield]
  | some value => rw [contentYield, contentYield, h value rfl s s' hs]

end ViewCompiler.Php
