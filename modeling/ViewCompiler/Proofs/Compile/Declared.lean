import ViewCompiler.Proofs.Compile.Totality
import ViewCompiler.Proofs.Template.Accesses
import ViewCompiler.Proofs.Template.Reading

/-!
# What a unit takes from its data

The names that the prologue of a unit takes from the data are free variables of its tree: the
declarable ones, and the default slot. A template declares its variables by its tree as written,
the unit by the tree whose accesses are calls. The two agree where the accesses are apart
(`declaredVariables_unitOf`), and not everywhere (`exists_declaredVariables_ne`).
-/

namespace ViewCompiler.Compile

open Expression (accessesApart)
open Php
open Template

/-! ## Names from the data -/

/-- The declarable names are those of the names that a unit may take from its data. -/
theorem mem_declarable {names : List String} {x : String} :
    x ∈ declarable names ↔ x ∈ names ∧ isDeclarable x = true := by
  rw [declarable, List.mem_mergeSort, List.mem_filter]

/-- No data is taken for the default slot by a template itself. -/
theorem isDeclarable_slotName : isDeclarable slotName = false := by decide

/-- A unit takes the declarable ones of its free variables and the default slot. -/
theorem mem_declaredNames {free : List String} {x : String} :
    x ∈ declaredNames free ↔ x ∈ free ∧ (isDeclarable x = true ∨ x = slotName) := by
  unfold declaredNames
  split
  · rename_i hslot
    rw [List.mem_mergeSort, List.mem_append, List.mem_singleton, mem_declarable]
    constructor
    · rintro (⟨hx, hdeclarable⟩ | rfl)
      · exact ⟨hx, .inl hdeclarable⟩
      · exact ⟨List.contains_iff_mem.mp hslot, .inr rfl⟩
    · rintro ⟨hx, hdeclarable | rfl⟩
      · exact .inl ⟨hx, hdeclarable⟩
      · exact .inr rfl
  · rename_i hslot
    rw [mem_declarable]
    refine and_congr_right fun hx => (or_iff_left ?_).symm
    rintro rfl
    exact hslot (List.contains_iff_mem.mpr hx)

/-- A name that is kept for generated code is neither declarable nor the default slot. -/
theorem notMem_declaredNames {free : List String} {x : String} (h : isInternal x = true) :
    x ∉ declaredNames free := by
  intro hx
  rcases (mem_declaredNames.mp hx).2 with hdeclarable | rfl
  · simp [isDeclarable, h] at hdeclarable
  · exact absurd h (by decide)

/-- The names that a unit takes from its data come from the free variables of its tree. -/
theorem gives_declared (path : String) (nodes : List Node) :
    Gives (unitOf path nodes) fun result : RenderUnit × Strategy =>
      result.1.declared = declaredNames (freeVariables nodes []) :=
  (gives_any _).bind fun _ _ => (gives_any _).bind fun _ _ => gives_pure rfl

/-- The unit of a parsed template is what is printed. -/
theorem compile_of_run {template path : String} {nodes : List Node}
    (hparse : parse template = .ok nodes) {u : RenderUnit} {form : Strategy} {taken : Names}
    (hrun : (unitOf path (withCalls nodes)).run [] = .ok ((u, form), taken)) (indent : String) :
    compile template path indent = .ok ⟨u.print indent, form⟩ := by
  have hcompile : compile template path indent =
      ((unitOf path (withCalls nodes)).run []).mapError CompileError.emit >>= fun result =>
        pure ⟨result.1.1.print indent, result.1.2⟩ := by
    rw [compile, hparse]
    rfl
  rw [hcompile, hrun]
  rfl

/-! ## Declared variables -/

/-- The declared variables of a template are told by the free variables of its tree. -/
theorem declaredVariables_of_parse {template : String} {nodes : List Node}
    (hparse : parse template = .ok nodes) :
    declaredVariables template = .ok (declarable (freeVariables nodes [])) := by
  rw [declaredVariables, usedVariables, hparse]
  rfl

/-- **The declared variables of a template are the ones that its unit binds**, the default slot
aside, if the accesses of its expressions are apart: its tree has the same free variables as
written and with the accesses as calls. -/
theorem declaredVariables_unitOf {template : String} {nodes : List Node}
    (hparse : parse template = .ok nodes)
    (hapart : ∀ e ∈ accessing nodes, accessesApart e = true) (path : String) :
    (∀ bound, freeVariables (withCalls nodes) bound = freeVariables nodes bound) ∧
      ∃ names u form taken, declaredVariables template = .ok names ∧
        (unitOf path (withCalls nodes)).run [] = .ok ((u, form), taken) ∧
        (∀ indent, compile template path indent = .ok ⟨u.print indent, form⟩) ∧
        ∀ x, x ∈ names ↔ x ∈ u.declared ∧ x ≠ slotName := by
  have hfree := freeVariables_withCalls hapart
  obtain ⟨⟨u, form⟩, taken, hrun⟩ := succeeds_unitOf path (withCalls nodes) []
  refine ⟨hfree, _, u, form, taken, declaredVariables_of_parse hparse, hrun,
    compile_of_run hparse hrun, fun x => ?_⟩
  rw [gives_declared path (withCalls nodes) _ _ _ hrun, hfree, mem_declarable, mem_declaredNames]
  constructor
  · rintro ⟨hx, hdeclarable⟩
    refine ⟨⟨hx, .inl hdeclarable⟩, ?_⟩
    rintro rfl
    rw [isDeclarable_slotName] at hdeclarable
    cases hdeclarable
  · rintro ⟨⟨hx, hdeclarable | hslot⟩, hne⟩
    · exact ⟨hx, hdeclarable⟩
    · exact absurd hslot hne

/-- A template with an access behind a double colon, one in a slot, and the default slot. -/
def apartTemplate : String :=
  "\x7b\x7b A::$b$u.n . '$c' \x7d\x7d<x-a>\x7b\x7b $u.m \x7d\x7d</x-a>\x7b\x7b $slot \x7d\x7d"

/-- Its accesses are apart. -/
theorem declaredVariables_unitOf_apart :
    ∃ nodes, parse apartTemplate = .ok nodes ∧
      (∀ e ∈ accessing nodes, accessesApart e = true) ∧
      ∃ names u form taken, declaredVariables apartTemplate = .ok names ∧
        (unitOf "" (withCalls nodes)).run [] = .ok ((u, form), taken) ∧
        (∀ x, x ∈ names ↔ x ∈ u.declared ∧ x ≠ slotName) ∧ "u" ∈ names ∧ "b" ∉ names := by
  have hcheck : ((parse apartTemplate).toOption.any fun nodes =>
      (accessing nodes).all accessesApart && (reads [] nodes).contains "u" &&
        !(reads [] nodes).contains "b") = true := by decide +kernel
  obtain ⟨nodes, hparse, hreads⟩ := exists_parse_of_any hcheck
  simp only [Bool.and_eq_true, List.all_eq_true, List.contains_eq_mem, Bool.not_eq_true',
    decide_eq_true_eq, decide_eq_false_iff_not] at hreads
  obtain ⟨⟨hapart, hu⟩, hb⟩ := hreads
  obtain ⟨-, names, u, form, taken, hnames, hrun, -, hiff⟩ :=
    declaredVariables_unitOf hparse hapart ""
  have hdeclarable : names = declarable (freeVariables nodes []) :=
    Except.ok.inj (hnames.symm.trans (declaredVariables_of_parse hparse))
  refine ⟨nodes, hparse, hapart, names, u, form, taken, hnames, hrun, hiff, ?_, ?_⟩
  · rw [hdeclarable, mem_declarable, mem_freeVariables]
    exact ⟨hu, by decide⟩
  · rw [hdeclarable, mem_declarable, mem_freeVariables]
    exact fun h => hb h.1

/-- A template with an access behind a sigil. -/
def variableVariableTemplate : String := "\x7b\x7b $$a.b \x7d\x7d"

/-- **A unit can bind a variable that its template does not declare**: the name of the accessor
function, behind a sigil. -/
theorem exists_declaredVariables_ne :
    ∃ nodes names u form taken, parse variableVariableTemplate = .ok nodes ∧
      freeVariables (withCalls nodes) [] ≠ freeVariables nodes [] ∧
      declaredVariables variableVariableTemplate = .ok names ∧
      (unitOf "" (withCalls nodes)).run [] = .ok ((u, form), taken) ∧
      ∃ x ∈ u.declared, x ≠ slotName ∧ x ∉ names := by
  have hcheck : ((parse variableVariableTemplate).toOption.any fun nodes =>
      (reads [] (withCalls nodes)).contains "data_get" &&
        !(reads [] nodes).contains "data_get") = true := by decide +kernel
  obtain ⟨nodes, hparse, hreads⟩ := exists_parse_of_any hcheck
  simp only [Bool.and_eq_true, List.contains_eq_mem, Bool.not_eq_true', decide_eq_true_eq,
    decide_eq_false_iff_not] at hreads
  obtain ⟨hcalls, hwritten⟩ := hreads
  rw [← mem_freeVariables] at hcalls hwritten
  obtain ⟨⟨u, form⟩, taken, hrun⟩ := succeeds_unitOf "" (withCalls nodes) []
  refine ⟨nodes, _, u, form, taken, hparse, fun heq => hwritten (heq ▸ hcalls),
    declaredVariables_of_parse hparse, hrun, "data_get", ?_, by decide, ?_⟩
  · rw [gives_declared "" (withCalls nodes) _ _ _ hrun, mem_declaredNames]
    exact ⟨hcalls, .inl (by decide)⟩
  · rw [mem_declarable]
    exact fun h => hwritten h.1

end ViewCompiler.Compile
