import ViewCompiler.Compile.Unit
import ViewCompiler.Proofs.Compile.Emitting
import ViewCompiler.Proofs.Template.Forms
import ViewCompiler.Proofs.Template.Nesting
import ViewCompiler.Proofs.Template.Tokens

/-!
# Which templates have a unit

Every tree has a unit: a form is asked only of nodes that have it, and slots are never nested
deeper than was allowed for (`succeeds_unitOf`). So a template is compiled as soon as it is parsed,
and it is parsed unless one of its closing directives has an unknown name in lower case
(`exists_compile_iff`). Such a name is spelled with a letter outside ASCII that is the same as an
ASCII letter up to case.
-/

namespace ViewCompiler.Compile

open Template Php
open Text (foldedWord? foldsTo lower lowerChar)

/-! ## Forms -/

/-- Slots that nest fewer than `n` others have a value. -/
def SucceedsBelow (n : Nat) (slot : SlotCompiler) : Prop :=
  ∀ content, slotDepth content < n → Succeeds (slot content)

section Forms

variable {slot : SlotCompiler} {path : String} {n : Nat}

/-- A component is compiled if its slots are nested less deep than the slot compiler reaches. -/
theorem succeeds_component (hslot : SucceedsBelow n slot) {tag : String}
    {attributes : List Attribute} {content : List Node} {slots : List NamedSlot}
    (h : max (slotDepth content) (slotsSlotDepth slots) < n) :
    Succeeds (component slot path tag attributes content slots) := by
  obtain ⟨hcontent, hslots⟩ := Nat.max_lt.mp h
  have hnamed : Succeeds (slotArguments slot slots) := by
    refine succeeds_mapM fun s hs => (hslot s.body ?_).bind fun _ => succeeds_pure _
    exact Nat.lt_of_le_of_lt (slotsSlotDepth_le_iff.mp (Nat.le_refl _) s hs) hslots
  have hdefault : Succeeds (contentCode slot content) := by
    unfold contentCode
    split
    · exact succeeds_pure _
    · rename_i node nodes htrim
      refine (hslot _ ?_).bind fun _ => succeeds_pure _
      exact Nat.lt_of_le_of_lt (htrim ▸ slotDepth_trimSlot_le content) hcontent
  exact hnamed.bind fun _ => hdefault.bind fun _ => succeeds_pure _

/-- A node that has a value is given one. -/
theorem succeeds_interpolation (hslot : SucceedsBelow n slot) {node : Node}
    (hnode : hasValue node = true) (hdepth : node.slotDepth ≤ n) :
    Succeeds (interpolation slot path node) := by
  match node with
  | .text _ | .echo .. | .host _ true => exact succeeds_pure _
  | .component tag attributes content slots => exact succeeds_component hslot hdepth
  | .host _ false | .comment _ | .conditional _ | .loop .. | .existence .. | .flag .. =>
    cases hnode

/-- A flat tree has an expression. -/
theorem succeeds_expression (hslot : SucceedsBelow n slot) {nodes : List Node}
    (hnodes : ∀ node ∈ content nodes, hasValue node = true) (hdepth : slotDepth nodes ≤ n) :
    Succeeds (expression slot path nodes) := by
  refine (succeeds_mapM fun node hnode => ?_).bind fun _ => succeeds_pure _
  exact succeeds_interpolation hslot (hnodes node hnode)
    (slotDepth_le_iff.mp hdepth node (List.mem_of_mem_filter hnode))

mutual

/-- Every node has markup. -/
theorem succeeds_markupOf (hslot : SucceedsBelow n slot) (node : Node)
    (hdepth : node.slotDepth ≤ n) : Succeeds (markupOf slot path node) := by
  match node with
  | .text _ | .comment _ | .echo .. | .host .. | .flag .. => exact succeeds_pure _
  | .component tag attributes content slots =>
    exact (succeeds_component hslot hdepth).bind fun _ => succeeds_pure _
  | .conditional branches =>
    exact (succeeds_branchesMarkup hslot branches hdepth).bind fun _ => succeeds_pure _
  | .loop head bindings body =>
    exact (succeeds_markup hslot body hdepth).bind fun _ => succeeds_pure _
  | .existence expression body =>
    exact (succeeds_markup hslot body hdepth).bind fun _ => succeeds_pure _

/-- Every tree has markup. -/
theorem succeeds_markup (hslot : SucceedsBelow n slot) (nodes : List Node)
    (hdepth : slotDepth nodes ≤ n) : Succeeds (markup slot path nodes) := by
  match nodes with
  | [] => exact succeeds_pure _
  | node :: nodes =>
    obtain ⟨hnode, hnodes⟩ := Nat.max_le.mp hdepth
    exact (succeeds_markupOf hslot node hnode).bind fun _ =>
      (succeeds_markup hslot nodes hnodes).bind fun _ => succeeds_pure _

/-- All branches have markup. -/
theorem succeeds_branchesMarkup (hslot : SucceedsBelow n slot) (branches : List Branch)
    (hdepth : branchesSlotDepth branches ≤ n) : Succeeds (branchesMarkup slot path branches) := by
  match branches with
  | [] => exact succeeds_pure _
  | ⟨condition, body⟩ :: branches =>
    obtain ⟨hbody, hbranches⟩ := Nat.max_le.mp hdepth
    exact (succeeds_markup hslot body hbody).bind fun _ =>
      (succeeds_branchesMarkup hslot branches hbranches).bind fun _ => succeeds_pure _
end

mutual

/-- Every node has statements. -/
theorem succeeds_statementOf (hslot : SucceedsBelow n slot) (node : Node)
    (hdepth : node.slotDepth ≤ n) : Succeeds (statementOf slot path node) := by
  match node with
  | .comment _ | .host _ false | .flag .. => exact succeeds_pure _
  | .text _ | .echo .. | .host _ true | .component .. =>
    exact (succeeds_interpolation hslot rfl hdepth).bind fun _ => succeeds_pure _
  | .conditional branches =>
    exact (succeeds_branchesStatements hslot branches hdepth).bind fun _ => succeeds_pure _
  | .loop head bindings body =>
    exact (succeeds_statements hslot body hdepth).bind fun _ => succeeds_pure _
  | .existence expression body =>
    exact (succeeds_statements hslot body hdepth).bind fun _ => succeeds_pure _

/-- Every tree has statements. -/
theorem succeeds_statements (hslot : SucceedsBelow n slot) (nodes : List Node)
    (hdepth : slotDepth nodes ≤ n) : Succeeds (statements slot path nodes) := by
  match nodes with
  | [] => exact succeeds_pure _
  | node :: nodes =>
    obtain ⟨hnode, hnodes⟩ := Nat.max_le.mp hdepth
    exact (succeeds_statementOf hslot node hnode).bind fun _ =>
      (succeeds_statements hslot nodes hnodes).bind fun _ => succeeds_pure _

/-- All branches have statements. -/
theorem succeeds_branchesStatements (hslot : SucceedsBelow n slot) (branches : List Branch)
    (hdepth : branchesSlotDepth branches ≤ n) :
    Succeeds (branchesStatements slot path branches) := by
  match branches with
  | [] => exact succeeds_pure _
  | ⟨condition, body⟩ :: branches =>
    obtain ⟨hbody, hbranches⟩ := Nat.max_le.mp hdepth
    exact (succeeds_statements hslot body hbody).bind fun _ =>
      (succeeds_branchesStatements hslot branches hbranches).bind fun _ => succeeds_pure _
end

end Forms

/-! ## Slots and units -/

/-- **Content that nests fewer slots than allowed has a value.** -/
theorem succeeds_slotCode (path : String) {nesting : Nat} {nodes : List Node}
    (h : slotDepth nodes < nesting) : Succeeds (slotCode path nesting nodes) := by
  induction nesting generalizing nodes with
  | zero => cases h
  | succ nesting ih =>
    have hslot : SucceedsBelow nesting (slotCode path nesting) := fun _ hcontent => ih hcontent
    have hbody : slotDepth (trimSlot nodes) ≤ nesting :=
      Nat.le_trans (slotDepth_trimSlot_le nodes) (Nat.lt_succ_iff.mp h)
    have hdedup : ∀ result : List Node × List Binding, ∀ taken,
        result = ((dedup (trimSlot nodes)).run taken).1 → slotDepth result.1 ≤ nesting := by
      rintro _ taken rfl
      rwa [slotDepth_dedup]
    rw [slotCode]
    split
    · exact succeeds_pure _
    · rename_i hform
      have halone := (isInterpolationAlone_of_slotForm hform).1
      exact (succeeds_expression hslot (hasValue_of_isInterpolationAlone halone)
        ((slotDepth_visible ..).trans_le hbody)).bind fun _ => succeeds_pure _
    · intro taken
      rw [run_bind (a := ((dedup (trimSlot nodes)).run taken).1) rfl]
      exact (succeeds_statements hslot _
        ((slotDepth_visible ..).trans_le (hdedup _ taken rfl))).bind (fun _ => succeeds_pure _) _
    · intro taken
      rw [run_bind (a := ((dedup (trimSlot nodes)).run taken).1) rfl]
      exact (succeeds_markup hslot _ (hdedup _ taken rfl)).bind (fun _ => succeeds_pure _) _

/-- A tree has a body in the form that is chosen for it. -/
theorem succeeds_unitBody (path : String) (nodes : List Node) (free : List String)
    (bindings : List Binding) :
    Succeeds (unitBody path (strategy nodes free bindings) nodes) := by
  have hslot : SucceedsBelow (slotDepth nodes) (slotsOf path nodes) := fun _ h =>
    succeeds_slotCode path h
  have hvisible : slotDepth (visible false nodes) ≤ slotDepth nodes := (slotDepth_visible ..).le
  unfold strategy
  dsimp only
  split
  · rename_i hdirect
    have halone := (Bool.and_eq_true_iff.mp hdirect).2
    exact (succeeds_expression hslot (hasValue_of_isInterpolationAlone halone) hvisible).bind
      fun _ => succeeds_pure _
  · split
    · rename_i hmap
      obtain ⟨candidate, hcandidate⟩ := Option.isSome_iff_exists.mp hmap
      obtain ⟨hcontent, hflat⟩ := content_of_mapCandidate? hcandidate
      have hloop :
          .loop candidate.head candidate.bindings candidate.body ∈ visible false nodes := by
        have hmem : .loop candidate.head candidate.bindings candidate.body ∈
            content (visible false nodes) := by simp [hcontent]
        exact List.mem_of_mem_filter hmem
      have hbody := slotDepth_le_iff.mp hvisible _ hloop
      simp only [unitBody, hcandidate]
      refine Succeeds.bind ?_ fun _ => succeeds_pure _
      exact (succeeds_expression hslot (hasValue_of_isFlat hflat) hbody).bind
        fun _ => succeeds_pure _
    · split
      · rename_i hflat
        exact (succeeds_expression hslot (hasValue_of_isFlat hflat) hvisible).bind
          fun _ => succeeds_pure _
      · exact (succeeds_markup hslot nodes le_rfl).bind fun _ => succeeds_pure _

/-- **Every tree has a unit.** -/
theorem succeeds_unitOf (path : String) (nodes : List Node) : Succeeds (unitOf path nodes) := by
  unfold unitOf
  exact (succeeds_taking _).bind fun result =>
    (succeeds_unitBody path result.1 _ result.2).bind fun _ => succeeds_pure _

/-- **Every tree has the text of a unit, and as content of a slot the text of a value**: under any
namespace, in any layout and whatever names are taken. No form is asked of nodes that have none,
before the repeated accessor calls are bound or after it, and neither in a slot at any depth: the
failure of a part would be the failure of the whole. -/
theorem exists_text_unitOf_slot (path indent : String) (layout : Layout) (nodes : List Node)
    (taken : Names) :
    (∃ text left, (do return (← unitOf path nodes).1.print indent : Emit String).run taken =
      .ok (text, left)) ∧
      ∃ text left, (do return (← slot path nodes).print layout : Emit String).run taken =
        .ok (text, left) := by
  have hunit : Succeeds (do return (← unitOf path nodes).1.print indent) :=
    (succeeds_unitOf path nodes).bind fun _ => succeeds_pure _
  have hslot : Succeeds (do return (← slot path nodes).print layout) :=
    (succeeds_slotCode path (Nat.lt_succ_self _)).bind fun _ => succeeds_pure _
  exact ⟨hunit taken, hslot taken⟩

/-! ## Closing directives without a name -/

/-- The lexeme is a closing directive whose name in lower case closes nothing. -/
def ClosesNothing (l : Lexeme) : Prop := ∃ name, l.saying = .closing (.unknown name)

/-- The letters outside ASCII that are the same up to case as an ASCII letter of a closing
directive and are another letter in lower case. -/
def foldedLetters : List Char := ['\u0130', '\u0131', '\u017F']

/-- A letter other than these is in lower case the letter of the word, unless it may be the Kelvin
sign. -/
theorem lowerChar_of_foldsTo {letter c : Char} (hletter : letter ∉ ['k', '\u212A'])
    (hc : c ∉ foldedLetters) (h : foldsTo letter c = true) : lowerChar c = [letter] := by
  simp only [foldedLetters, List.mem_cons, List.not_mem_nil, or_false, not_or] at hletter hc
  obtain ⟨hdotted, hdotless, hlong⟩ := hc
  have hlower : c.toLower = letter := by
    simpa [foldsTo, hdotted, hdotless, hlong, hletter.1] using h
  have hkelvin : c ≠ '\u212A' := by
    rintro rfl
    exact hletter.2 (hlower.symm.trans (by decide))
  simp [lowerChar, hdotted, hkelvin, hlower]

/-- A word that is found without these letters is the word in lower case. -/
theorem lower_of_foldedWord? {word found rest : List Char}
    (hword : ∀ letter ∈ word, letter ∉ ['k', '\u212A'])
    (h : foldedWord? word found = some (found, rest)) (hfound : ∀ c ∈ found, c ∉ foldedLetters) :
    lower found = word := by
  induction word generalizing found rest with
  | nil =>
    obtain ⟨rfl, -⟩ := Prod.mk.inj (Option.some.inj h)
    rfl
  | cons letter word ih =>
    cases found with
    | nil => cases h
    | cons c found =>
      rw [List.forall_mem_cons] at hword hfound
      rw [foldedWord?] at h
      split at h
      · rename_i hfolds
        obtain ⟨⟨tail, rest'⟩, hrest, heq⟩ := Option.map_eq_some_iff.mp h
        obtain ⟨htail, -⟩ := Prod.mk.inj heq
        obtain rfl := (List.cons.inj htail).2
        rw [lower, List.flatMap_cons, lowerChar_of_foldsTo hword.1 hfound.1 hfolds]
        exact congrArg (letter :: ·) (ih hword.2 hrest hfound.2)
      · cases h

/-- The closing directives close something and have none of the letters that fold to other letters
in lower case. -/
theorem closers_named {closer : String × Closing} (h : closer ∈ closers) :
    (∀ letter ∈ closer.1.toList, letter ∉ ['k', '\u212A']) ∧
      closingNamed closer.1.toList = closer.2 ∧ ∀ name, closer.2 ≠ .unknown name := by
  simp only [closers, List.mem_cons, List.not_mem_nil, or_false] at h
  rcases h with rfl | rfl | rfl <;>
    exact ⟨Expression.forall_mem_of_all (by decide), rfl, fun _ => Closing.noConfusion⟩

/-- A closing directive that closes nothing is spelled with one of these letters. -/
theorem exists_foldedLetter {template : String} {l : Lexeme} (hl : l ∈ lexemes template)
    (h : ClosesNothing l) : ∃ c ∈ l.raw.toList, c ∈ foldedLetters := by
  obtain ⟨name, hsaying⟩ := h
  have hspelling := spelling_of_mem_lexemes hl
  rw [hsaying] at hspelling
  generalize hraw : l.raw.toList = raw at hspelling
  generalize hclosing : Saying.closing (.unknown name) = saying at hspelling
  cases hspelling with
  | @closing closer keyword hcloser hkeyword =>
    by_contra hnone
    have hplain : ∀ c ∈ keyword, c ∉ foldedLetters := fun c hc hletter =>
      hnone ⟨c, List.mem_cons_of_mem _ hc, hletter⟩
    obtain ⟨hword, hnamed, hknown⟩ := closers_named hcloser
    rw [lower_of_foldedWord? hword hkeyword hplain, hnamed] at hclosing
    exact hknown name (Saying.closing.inj hclosing).symm
  | _ => cases hclosing

/-! ## Templates -/

/-- A lexeme is entered unless it closes nothing. -/
theorem exists_step_iff (r : Reading) (l : Lexeme) :
    (∃ next, r.step l = .ok next) ↔ ¬ ClosesNothing l := by
  obtain ⟨saying, raw⟩ := l
  unfold Reading.step ClosesNothing
  constructor
  · rintro ⟨next, hnext⟩ ⟨name, rfl⟩
    cases hnext
  · intro h
    match saying with
    | .text | .node _ | .opening _ | .branch _ | .slotClosing | .tagClosing _ => exact ⟨_, rfl⟩
    | .closing .conditional | .closing .loop | .closing .existence => exact ⟨_, rfl⟩
    | .closing (.unknown name) => exact absurd ⟨name, rfl⟩ h
    | .slotOpening name =>
      dsimp only
      split <;> exact ⟨_, rfl⟩

/-- Lexemes are entered one after the other unless one of them closes nothing. -/
theorem exists_foldlM_step_iff (r : Reading) (ls : List Lexeme) :
    (∃ last, ls.foldlM Reading.step r = .ok last) ↔ ∀ l ∈ ls, ¬ ClosesNothing l := by
  induction ls generalizing r with
  | nil => exact iff_of_true ⟨r, rfl⟩ fun l hl => absurd hl List.not_mem_nil
  | cons l ls ih =>
    rw [List.forall_mem_cons, ← exists_step_iff r l, List.foldlM_cons]
    constructor
    · rintro ⟨last, hlast⟩
      cases hstep : r.step l with
      | error e =>
        rw [hstep] at hlast
        cases hlast
      | ok next =>
        rw [hstep] at hlast
        exact ⟨⟨next, rfl⟩, (ih next).mp ⟨last, hlast⟩⟩
    · rintro ⟨⟨next, hnext⟩, hls⟩
      rw [hnext]
      exact (ih next).mpr hls

/-- A template is parsed unless one of its lexemes closes nothing. -/
theorem exists_parse_iff (template : String) :
    (∃ nodes, parse template = .ok nodes) ↔ ∀ l ∈ lexemes template, ¬ ClosesNothing l := by
  rw [← exists_foldlM_step_iff .start]
  unfold parse
  cases (lexemes template).foldlM Reading.step .start with
  | error e => exact iff_of_false (fun ⟨_, h⟩ => nomatch h) (fun ⟨_, h⟩ => nomatch h)
  | ok last => exact iff_of_true ⟨_, rfl⟩ ⟨_, rfl⟩

/-- A template is compiled if it is parsed. -/
theorem exists_compiled_iff (template path indent : String) :
    (∃ compiled, compile template path indent = .ok compiled) ↔
      ∀ l ∈ lexemes template, ¬ ClosesNothing l := by
  rw [← exists_parse_iff]
  unfold compile
  cases parse template with
  | error e => exact iff_of_false (fun ⟨_, h⟩ => nomatch h) (fun ⟨_, h⟩ => nomatch h)
  | ok nodes =>
    obtain ⟨unit, taken, hunit⟩ := succeeds_unitOf path (withCalls nodes) []
    refine iff_of_true ⟨⟨unit.1.print indent, unit.2⟩, ?_⟩ ⟨nodes, rfl⟩
    show (do
      let result ← ((unitOf path (withCalls nodes)).run []).mapError CompileError.emit
      return ⟨result.1.1.print indent, result.1.2⟩ : Except CompileError Compiled) = _
    rw [hunit]
    rfl

/-- **A template is compiled unless a closing directive closes nothing**, whatever the namespace
and the indentation. Such a directive is spelled with a letter outside ASCII. -/
theorem exists_compile_iff (template path indent : String) :
    ((∃ compiled, compile template path indent = .ok compiled) ↔
      ∀ l ∈ lexemes template, ¬ ClosesNothing l) ∧
      ∀ l ∈ lexemes template, ClosesNothing l → ∃ c ∈ l.raw.toList, c ∈ foldedLetters :=
  ⟨exists_compiled_iff template path indent, fun _ hl => exists_foldedLetter hl⟩

/-- **A template whose closing directive is spelled with a dotless i is not compiled.** -/
theorem compile_dotless_closer :
    ∃ name, compile "@end\u0131f" defaultNamespace defaultIndent =
      .error (.parse (.unknownCloser name)) := by
  have hcheck : (match parse "@end\u0131f" with
      | .error (.unknownCloser name) => name == "end\u0131f"
      | .ok _ => false) = true := by decide +kernel
  cases hparse : parse "@end\u0131f" with
  | ok nodes =>
    rw [hparse] at hcheck
    cases hcheck
  | error e =>
    obtain ⟨name⟩ := e
    refine ⟨name, ?_⟩
    rw [compile, hparse]
    rfl

end ViewCompiler.Compile
