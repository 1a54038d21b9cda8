import ViewCompiler.Compile.Unit
import ViewCompiler.Proofs.Php.Indentation

/-!
# Indentation is cosmetic

A template has one unit, whatever the indentation, and only the printer is told it. So two
indentations give the same text up to the blanks (`compile_indent`).
-/

namespace ViewCompiler.Compile

open Php Template

/-- The unit of a template and the form of its body, or the reason why there is none. -/
def unitOfTemplate (template path : String) : Except CompileError (RenderUnit × Strategy) := do
  let nodes ← (parse template).mapError .parse
  let (unit, _) ← ((unitOf path (withCalls nodes)).run []).mapError .emit
  return unit

/-- The indentation is asked for when the unit is printed, and not before. -/
theorem compile_eq_map (template path indent : String) :
    compile template path indent =
      (unitOfTemplate template path).map fun u : RenderUnit × Strategy =>
        ⟨u.1.print indent, u.2⟩ := by
  unfold compile unitOfTemplate
  cases parse template with
  | error e => rfl
  | ok nodes =>
    show (do
      let result ← ((unitOf path (withCalls nodes)).run []).mapError CompileError.emit
      return ⟨result.1.1.print indent, result.1.2⟩ : Except CompileError Compiled) =
        (do
          let result ← ((unitOf path (withCalls nodes)).run []).mapError CompileError.emit
          return result.1 : Except CompileError _).map _
    cases (unitOf path (withCalls nodes)).run [] with
    | error e => rfl
    | ok result => rfl

/-- **Indentation is cosmetic.** A mark that does not occur in the unit without indentation can
stand for one level: the unit with any indentation is the one with the mark, the indentation in
place of every mark, and its form is the same. So both are prints of one unit; and without
indentation the code of a slot is the same at all levels. -/
theorem compile_indent (template path indent : String) {mark : Char}
    (hmark : ∀ compiled, compile template path "" = .ok compiled → mark ∉ compiled.php.toList) :
    compile template path indent =
        (compile template path (String.singleton mark)).map
          (fun compiled => { compiled with php := fillIn mark indent compiled.php }) ∧
      (∃ unit : Except CompileError (RenderUnit × Strategy), ∀ other,
        compile template path other = unit.map fun u => ⟨u.1.print other, u.2⟩) ∧
      ∀ (value : SlotCode) (level other : Int),
        value.print ⟨"", level⟩ = value.print ⟨"", other⟩ := by
  refine ⟨?_, ⟨unitOfTemplate template path, compile_eq_map template path⟩,
    fun value => value.laid_print.print_level⟩
  rw [compile_eq_map] at hmark
  rw [compile_eq_map, compile_eq_map]
  cases h : unitOfTemplate template path with
  | error e => rfl
  | ok unit =>
    rw [h] at hmark
    have hprint :
      unit.1.print indent = fillIn mark indent (unit.1.print (String.singleton mark)) :=
      unit.1.laid_print.print_indent 0 (hmark _ rfl)
    exact congrArg (fun php => (Except.ok ⟨php, unit.2⟩ : Except CompileError Compiled)) hprint

/-- A template with a component that has a slot, so that its unit goes over several lines. -/
def slotTemplate : String := "<x-a>b</x-a>"

/-- The arguments of a component are indented by tabs. -/
theorem compile_indent_slot :
    ∃ compiled, compile slotTemplate "" "~" = .ok compiled ∧
      compile slotTemplate "" "\t" =
        .ok { compiled with php := fillIn '~' "\t" compiled.php } := by
  have hcheck : (match compile slotTemplate "" "" with
      | .ok compiled => !compiled.php.toList.contains '~'
      | .error _ => false) = true := by decide +kernel
  have hmark : ∀ compiled, compile slotTemplate "" "" = .ok compiled →
      '~' ∉ compiled.php.toList := by
    intro compiled h
    rw [h] at hcheck
    simpa using hcheck
  have hindent := (compile_indent slotTemplate "" "\t" hmark).1
  rw [compile_eq_map] at hcheck
  cases hunit : unitOfTemplate slotTemplate "" with
  | error e =>
    rw [hunit] at hcheck
    cases hcheck
  | ok unit =>
    have hmarked := compile_eq_map slotTemplate "" (String.singleton '~')
    rw [hunit] at hmarked
    rw [hmarked] at hindent
    exact ⟨_, hmarked, hindent⟩

end ViewCompiler.Compile
