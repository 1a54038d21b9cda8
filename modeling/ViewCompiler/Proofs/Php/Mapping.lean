import Mathlib.Tactic.SplitIfs
import ViewCompiler.Proofs.Php.LineEnds
import ViewCompiler.Proofs.Php.Reads

/-!
# Mapping the elements of a loop

A loop runs its body for one element after the other, and its variables keep their values from one
turn to the next. The mapping function is called anew for each element and sees the variables
around it only as they were before, if at all. Both print the same (`filter_execLoop`) if the body
reads nothing but the loop's own variables and what the function sees.
-/

namespace ViewCompiler.Php

open Expression (mentioned)
open Template (Store Binding LoopHead uncapturable)

variable {machine : Machine} {s s' : Store machine.Value}

/-! ## What assigns which variables -/

/-- A loop leaves a variable that is not its own as it is. -/
theorem assign_of_notMem {head : LoopHead} {x : String} (h : x ∉ head.names)
    (element : machine.Value × machine.Value) : machine.assign head element s x = s x := by
  obtain ⟨collection, item, key⟩ := head
  cases key with
  | none =>
    have hitem : x ≠ item := by simpa [LoopHead.names] using h
    exact Function.update_of_ne hitem ..
  | some key =>
    have hnames : x ≠ key ∧ x ≠ item := by simpa [LoopHead.names] using h
    exact (Function.update_of_ne hnames.1 ..).trans (Function.update_of_ne hnames.2 ..)

/-- The variables of a loop get the same values whatever the others hold. -/
theorem assign_congr {head : LoopHead} {x : String} (h : x ∈ head.names ∨ s x = s' x)
    (element : machine.Value × machine.Value) :
    machine.assign head element s x = machine.assign head element s' x := by
  obtain ⟨collection, item, key⟩ := head
  cases key with
  | none =>
    simp only [LoopHead.names, Option.toList_none, List.nil_append, List.mem_singleton] at h
    simp only [Template.Host.assign, Function.update_apply]
    split_ifs with hitem
    · rfl
    · exact h.resolve_left hitem
  | some key =>
    simp only [LoopHead.names, Option.toList_some, List.cons_append, List.nil_append,
      List.mem_cons, List.not_mem_nil, or_false] at h
    simp only [Template.Host.assign, Function.update_apply]
    split_ifs with hkey hitem
    · rfl
    · rfl
    · exact h.resolve_left (not_or.mpr ⟨hkey, hitem⟩)

/-- Parameters with different names are assigned like the variables of a loop. -/
theorem pass_eq_assign {head : LoopHead} (h : ∀ key ∈ head.key, key ≠ head.item)
    (element : machine.Value × machine.Value) :
    machine.pass head element s = machine.assign head element s := by
  obtain ⟨collection, item, key⟩ := head
  cases key with
  | none => rfl
  | some key => exact Function.update_comm (h key rfl) ..

/-- Local variables leave a variable that is none of them as it is. -/
theorem bindAll_of_notMem {locals : List Binding} {x : String} (h : x ∉ locals.map (·.name)) :
    machine.bindAll locals s x = s x := by
  induction locals generalizing s with
  | nil => rfl
  | cons b locals ih =>
    rw [List.map_cons, List.mem_cons, not_or] at h
    exact (ih h.2).trans (Function.update_of_ne h.1 ..)

/-- Local variables get the same values if what they are given mentions only names on which the
stores agree. -/
theorem bindAll_congr (agreed : String → Prop) {locals : List Binding}
    (hagreed : ∀ x, agreed x → s x = s' x)
    (hlocals : ∀ b ∈ locals, ∀ x ∈ mentioned b.value, agreed x) {x : String}
    (hx : agreed x ∨ x ∈ locals.map (·.name)) :
    machine.bindAll locals s x = machine.bindAll locals s' x := by
  induction locals generalizing s s' agreed with
  | nil => exact hagreed x (hx.resolve_right List.not_mem_nil)
  | cons b locals ih =>
    rw [List.forall_mem_cons] at hlocals
    have heval : machine.eval b.value s = machine.eval b.value s' :=
      Template.eval_congr fun y hy => hagreed y (hlocals.1 y hy)
    refine ih (fun y => agreed y ∨ y = b.name) ?_
      (fun c hc y hy => .inl (hlocals.2 c hc y hy)) ?_
    · intro y hy
      simp only [Template.Host.bind, heval, Function.update_apply]
      split_ifs with hname
      · rfl
      · exact hagreed y (hy.resolve_right hname)
    · rcases hx with hx | hx
      · exact .inl (.inl hx)
      · rcases List.mem_cons.mp hx with rfl | hx
        · exact .inl (.inr rfl)
        · exact .inr hx

/-! ## A turn of a loop -/

/-- Assigning local variables prints nothing and assigns them. -/
theorem execLocals_eq (locals : List Binding) (s : Store machine.Value) :
    ((execLocals machine locals s).1.filter (Act.prints machine) = []) ∧
      (execLocals machine locals s).2 = machine.bindAll locals s := by
  induction locals generalizing s with
  | nil => exact ⟨rfl, rfl⟩
  | cons b locals ih => exact ih (machine.bind b s)

/-- Turning to an element prints nothing. -/
theorem execElement_eq (head : LoopHead) (locals : List Binding)
    (element : machine.Value × machine.Value) (s : Store machine.Value) :
    ((execElement machine head locals element s).1.filter (Act.prints machine) = []) ∧
      (execElement machine head locals element s).2 =
        machine.bindAll locals (machine.assign head element s) :=
  execLocals_eq locals (machine.assign head element s)

/-! ## The loop -/

/-- The key and the item of the loop have different names, and the local variables are given values
that mention no other variables. -/
structure IsMappable (head : LoopHead) (locals : List Binding) : Prop where
  different : ∀ key ∈ head.key, key ≠ head.item
  own : ∀ b ∈ locals, mentioned b.value ⊆ head.names

/-- A loop can run over the value: it is false, or a collection whose keys are all different. -/
def IsLoopable (machine : Machine) (v : machine.Value) : Prop :=
  machine.holds v = false ∨
    machine.isCollection v = true ∧ ((machine.elements v).map Prod.fst).Nodup

/-- The elements that are mapped have the values of the loop's elements, in order, and with a key
its keys too. -/
theorem elements_items (hlaw : machine.Lawful) (map : LoopMap)
    (h : IsLoopable machine (machine.eval map.head.collection s)) :
    ((machine.elements (map.items machine s)).map Prod.snd =
        (machine.elements (machine.eval map.head.collection s)).map Prod.snd) ∧
      (map.head.key.isSome = true →
        machine.elements (map.items machine s) =
          machine.elements (machine.eval map.head.collection s)) := by
  generalize hv : machine.eval map.head.collection s = v at h
  have hitems : map.items machine s = machine.toArray map.head.key.isSome
      (if machine.holds v then v else machine.value "[]" []) := by rw [← hv]; rfl
  rw [hitems]
  cases hholds : machine.holds v with
  | false =>
    have hnone := hlaw.elements_of_false v hholds
    have hempty := hlaw.elements_empty
    have hkeyed := hlaw.elements_toArray _ hlaw.isCollection_empty
      (by rw [hempty]; exact List.nodup_nil)
    have hvalues := hlaw.values_toArray _ hlaw.isCollection_empty
    rw [hempty] at hkeyed hvalues
    simp only [Bool.false_eq_true, if_false, hnone]
    cases map.head.key.isSome with
    | true => exact ⟨by rw [hkeyed], fun _ => hkeyed⟩
    | false => exact ⟨hvalues, fun hkey => nomatch hkey⟩
  | true =>
    obtain ⟨hcollection, hnodup⟩ := h.resolve_left (by rw [hholds]; exact Bool.noConfusion)
    have hkeyed := hlaw.elements_toArray v hcollection hnodup
    simp only [if_true]
    cases map.head.key.isSome with
    | true => exact ⟨by rw [hkeyed], fun _ => hkeyed⟩
    | false => exact ⟨hlaw.values_toArray v hcollection, fun hkey => nomatch hkey⟩

/-- Without a key the mapping function gets the value of an element only. -/
theorem entered_of_key_eq_none {map : LoopMap} (h : map.head.key = none)
    (element : machine.Value × machine.Value) :
    map.entered machine s element = map.entered machine s (element.2, element.2) := by
  simp only [LoopMap.entered, Machine.pass, h]

/-- So what is mapped is the same for the elements of the array as for those of the loop. -/
theorem flatMap_items {α : Type} (hlaw : machine.Lawful) (map : LoopMap)
    (h : IsLoopable machine (machine.eval map.head.collection s)) (t : Store machine.Value)
    (f : Store machine.Value → List α) :
    (machine.elements (map.items machine s)).flatMap (fun e => f (map.entered machine t e)) =
      (machine.elements (machine.eval map.head.collection s)).flatMap
        fun e => f (map.entered machine t e) := by
  obtain ⟨hvalues, hkeyed⟩ := elements_items hlaw map h
  cases hkey : map.head.key with
  | some key => rw [hkeyed (by rw [hkey]; rfl)]
  | none =>
    have hsnd : ∀ es : List (machine.Value × machine.Value),
        es.flatMap (fun e => f (map.entered machine t e)) =
          (es.map Prod.snd).flatMap fun v => f (map.entered machine t (v, v)) := by
      intro es
      rw [List.flatMap_map]
      exact congrArg es.flatMap (funext fun e => congrArg f (entered_of_key_eq_none hkey e))
    rw [hsnd, hsnd, hvalues]

section Loop

variable {map : LoopMap} {names : List String}

/-- The variables that the loop assigns. -/
def LoopMap.assigned (map : LoopMap) : List String := map.head.names ++ map.locals.map (·.name)

/-- What the value reads, the mapping function captures or the loop assigns; it is not the array
that is mapped. -/
structure LoopMap.Sees (map : LoopMap) (names : List String) : Prop where
  captured : ∀ x ∈ names, x ∉ map.assigned → x ∉ uncapturable → x ∈ map.uses
  items_notMem : itemsVariable ∈ names → itemsVariable ∈ map.assigned

/-- The variables are the same in a turn of the loop as in the mapping function. -/
theorem agreeOn_entered (hmap : IsMappable map.head map.locals) (hsees : map.Sees names)
    (items : machine.Value) (hs : ∀ x, x ∉ map.assigned → s' x = s x)
    (element : machine.Value × machine.Value) :
    AgreeOn names (machine.bindAll map.locals (machine.assign map.head element s'))
      (map.entered machine (Function.update s itemsVariable items) element) := by
  intro x hx
  rw [LoopMap.entered, pass_eq_assign hmap.different]
  refine bindAll_congr (fun y => y ∈ map.head.names ∨
    s' y = map.outside machine (Function.update s itemsVariable items) y)
    (fun y hy => assign_congr hy element) (fun b hb y hy => .inl (hmap.own b hb hy)) ?_
  by_cases hassigned : x ∈ map.assigned
  · exact (List.mem_append.mp hassigned).imp_left .inl
  · refine .inl (.inr ?_)
    have hitems : x ≠ itemsVariable := by
      rintro rfl
      exact hx.elim (fun hname => hassigned (hsees.items_notMem hname)) (by decide)
    have hseen : Function.update s itemsVariable items x = s' x :=
      (Function.update_of_ne hitems ..).trans (hs x hassigned).symm
    unfold LoopMap.outside
    split_ifs
    · exact hseen.symm
    · have huses : x ∈ map.uses ∨ x ∈ uncapturable :=
        (em (x ∈ uncapturable)).symm.imp_left fun hfixed =>
          hsees.captured x (hx.resolve_right hfixed) hassigned hfixed
      exact (hseen.symm).trans (if_pos huses).symm

/-- **A loop prints what is mapped.** -/
theorem filter_execLoop (map : LoopMap) (hlaw : machine.Lawful)
    (hmap : IsMappable map.head map.locals)
    (hsees : map.Sees names) (hreads : map.value.Reads machine names)
    (hcollection : IsLoopable machine (machine.eval map.head.collection s)) :
    (execLoop machine map.head map.locals
      (Exec.acting fun s => map.value.acts machine s) s).1.filter (Act.prints machine) =
      ((machine.elements (map.items machine s)).flatMap fun element => map.value.acts machine
        (map.entered machine (Function.update s itemsVariable (map.items machine s))
          element)).filter (Act.prints machine) := by
  rw [flatMap_items hlaw map hcollection _ fun t => map.value.acts machine t, execLoop]
  generalize machine.elements (machine.eval map.head.collection s) = elements
  -- the variables that the loop does not assign keep their values from turn to turn
  suffices hturns : ∀ s' : Store machine.Value, (∀ x, x ∉ map.assigned → s' x = s x) →
      (Exec.forEach (fun element => (execElement machine map.head map.locals element).andThen
        (Exec.acting fun s => map.value.acts machine s)) elements s').1.filter
          (Act.prints machine) =
      (elements.flatMap fun element => map.value.acts machine (map.entered machine
        (Function.update s itemsVariable (map.items machine s)) element)).filter
          (Act.prints machine) from hturns s fun _ _ => rfl
  induction elements with
  | nil => exact fun _ _ => rfl
  | cons element elements ih =>
    intro s' hs
    obtain ⟨hquiet, hstore⟩ := execElement_eq map.head map.locals element s'
    have hnext : ∀ x, x ∉ map.assigned →
        machine.bindAll map.locals (machine.assign map.head element s') x = s x := by
      intro x hx
      have hnames := not_or.mp (fun h => hx (List.mem_append.mpr h))
      exact (bindAll_of_notMem hnames.2).trans
        ((assign_of_notMem hnames.1 element).trans (hs x hx))
    have hturn := hreads _ _ (agreeOn_entered hmap hsees (map.items machine s) hs element)
    rw [Exec.forEach]
    simp only [Exec.andThen, Exec.acting, hstore, List.filter_append, hquiet, List.nil_append,
      List.flatMap_cons, hturn, ih _ hnext]

end Loop

end ViewCompiler.Php
