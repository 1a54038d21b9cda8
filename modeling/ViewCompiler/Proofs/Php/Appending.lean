import ViewCompiler.Proofs.Php.LineEnds
import ViewCompiler.Proofs.Template.Sharing

/-!
# Appending instead of printing

Statements do not print: they append to the output variable what the same tags would print
(`Appends`). The relation holds of runs one after the other, of tests and of loops if it holds of
their parts. What is tested, run over and assigned must not depend on the output variable, and
nothing but appending may assign it.
-/

namespace ViewCompiler.Php

open Expression (mentioned)
open Template (Store Binding LoopHead uncapturable eval_update)

variable {machine : Machine}

/-! ## Output -/

/-- Acts in two lists print one list after the other. -/
theorem output_append (acts others : List (Act machine.Value)) :
    output machine (acts ++ others) = output machine acts ++ output machine others := by
  rw [output, List.map_append, String.join_append]
  rfl

/-- The acts of a text print it. -/
theorem output_literalActs (content : String) :
    output machine (literalActs machine content) = content := by
  unfold literalActs
  split
  · rename_i hempty
    rw [hempty]
    rfl
  · rw [output, List.map_singleton, Act.text, String.join_cons, String.join_nil,
      String.append_empty]

/-! ## The relation -/

/-- The second run does what the first does, and appends what the first prints to the output
variable; the first does not use the variable. -/
def Appends (printing appending : Exec machine) : Prop :=
  ∀ s text, appending (Function.update s outputVariable (machine.ofText text)) =
    ((printing s).1, Function.update (printing s).2 outputVariable
      (machine.ofText (text ++ output machine (printing s).1)))

variable {first first' second second' : Exec machine}

/-- Runs that append what others print do so one after the other. -/
theorem Appends.andThen (h : Appends first first') (hsecond : Appends second second') :
    Appends (first.andThen second) (first'.andThen second') := by
  intro s text
  rw [Exec.andThen, h s text, hsecond]
  simp only [Exec.andThen, output_append, String.append_assoc]

/-- Two runs that print nothing and do not use the output variable. -/
theorem appends_of_quiet (hquiet : ∀ s, output machine (first s).1 = "")
    (h : ∀ s v, first' (Function.update s outputVariable v) =
      ((first s).1, Function.update (first s).2 outputVariable v)) : Appends first first' := by
  intro s text
  rw [h, hquiet, String.append_empty]

/-- Doing nothing appends nothing. -/
theorem appends_skip : Appends (Exec.skip : Exec machine) Exec.skip :=
  appends_of_quiet (fun _ => rfl) fun _ _ => rfl

/-- What is printed is appended. -/
theorem appends_acting (hlaw : machine.Lawful)
    {acts : Store machine.Value → List (Act machine.Value)}
    (h : ∀ s v, acts (Function.update s outputVariable v) = acts s) :
    Appends (Exec.acting acts) fun s => (acts s, appending machine (acts s) s) := by
  intro s text
  simp only [h, Exec.acting, appending, Function.update_self, Function.update_idem,
    hlaw.shown_ofText]

/-- Runs for each element append what the others print for each. -/
theorem appends_forEach {α : Type} {once once' : α → Exec machine}
    (h : ∀ a, Appends (once a) (once' a)) (as : List α) :
    Appends (Exec.forEach once as) (Exec.forEach once' as) := by
  induction as with
  | nil => exact appends_skip
  | cons a as ih => exact (h a).andThen ih

/-- A branch appends what the other prints, if its test leaves out the output variable. -/
theorem appends_branch {test : Store machine.Value → Bool} {act : Bool → Act machine.Value}
    (hact : ∀ holds, (act holds).text machine = "")
    (htest : ∀ s v, test (Function.update s outputVariable v) = test s)
    (h : Appends first first') (hsecond : Appends second second') :
    Appends (Exec.branch test act first second) (Exec.branch test act first' second') := by
  intro s text
  have houtput : ∀ holds acts, output machine (act holds :: acts) = output machine acts := by
    intro holds acts
    rw [output, List.map_cons, String.join_cons, hact, String.empty_append]
    rfl
  simp only [Exec.branch, htest, houtput]
  cases test s with
  | true => simp only [if_true, h s text]
  | false => simp only [Bool.false_eq_true, if_false, hsecond s text]

/-! ## Tests and loops -/

/-- A branch by a condition appends what the other prints, if the condition leaves out the output
variable. -/
theorem appends_execBranch {condition : Option String}
    (hcondition : ∀ e ∈ condition, outputVariable ∉ mentioned e) (h : Appends first first')
    (hsecond : Appends second second') :
    Appends (execBranch machine condition first second)
      (execBranch machine condition first' second') := by
  cases condition with
  | none => exact h
  | some e =>
    refine appends_branch (fun _ => rfl) (fun s v => ?_) h hsecond
    rw [eval_update (hcondition e rfl)]

/-- A body for when a value is there appends what the other prints. -/
theorem appends_execPresence {expression : String}
    (hexpression : outputVariable ∉ mentioned expression)
    (h : Appends first first') :
    Appends (execPresence machine expression first) (execPresence machine expression first') := by
  refine appends_branch (fun _ => rfl) (fun s v => ?_) h appends_skip
  rw [eval_update hexpression]

/-- Assigning local variables other than the output variable appends nothing. -/
theorem appends_execLocals {locals : List Binding} (hnames : outputVariable ∉ locals.map (·.name))
    (hvalues : ∀ b ∈ locals, outputVariable ∉ mentioned b.value) :
    Appends (execLocals machine locals) (execLocals machine locals) := by
  induction locals with
  | nil => exact appends_skip
  | cons b locals ih =>
    rw [List.map_cons, List.mem_cons, not_or] at hnames
    rw [List.forall_mem_cons] at hvalues
    refine Appends.andThen (appends_of_quiet (fun _ => rfl) fun s v => ?_) (ih hnames.2 hvalues.2)
    simp only [Template.Host.bind, eval_update hvalues.1, Function.update_comm hnames.1]

/-- Assigning a loop's variables for an element appends nothing. -/
theorem appends_execElement {head : LoopHead} {locals : List Binding}
    (hhead : outputVariable ∉ head.names) (hnames : outputVariable ∉ locals.map (·.name))
    (hvalues : ∀ b ∈ locals, outputVariable ∉ mentioned b.value)
    (element : machine.Value × machine.Value) :
    Appends (execElement machine head locals element)
      (execElement machine head locals element) := by
  refine Appends.andThen (appends_of_quiet (fun _ => rfl) fun s v => ?_)
    (appends_execLocals hnames hvalues)
  have hassign : machine.assign head element (Function.update s outputVariable v) =
      Function.update (machine.assign head element s) outputVariable v := by
    obtain ⟨collection, item, key⟩ := head
    cases key with
    | none =>
      have hitem : outputVariable ≠ item := by simpa [LoopHead.names] using hhead
      exact Function.update_comm hitem ..
    | some key =>
      have hboth : outputVariable ≠ key ∧ outputVariable ≠ item := by
        simpa [LoopHead.names] using hhead
      simp only [Template.Host.assign, Function.update_comm hboth.1, Function.update_comm hboth.2]
  simp only [hassign]

/-- A loop appends what the other prints if its body does. -/
theorem appends_execLoop {head : LoopHead} {locals : List Binding}
    (hcollection : outputVariable ∉ mentioned head.collection)
    (hhead : outputVariable ∉ head.names)
    (hnames : outputVariable ∉ locals.map (·.name))
    (hvalues : ∀ b ∈ locals, outputVariable ∉ mentioned b.value) (h : Appends first first') :
    Appends (execLoop machine head locals first) (execLoop machine head locals first') := by
  intro s text
  rw [execLoop, eval_update hcollection]
  exact appends_forEach
    (fun element => (appends_execElement hhead hnames hvalues element).andThen h) _ s text

end ViewCompiler.Php
