import ViewCompiler.Compile.Unit
import ViewCompiler.Proofs.Compile.Flat
import ViewCompiler.Proofs.Compile.Totality
import ViewCompiler.Proofs.Php.OpenTags
import ViewCompiler.Proofs.Template.WellFormed

/-!
# Literal text in markup

In the form of tags the text of a template is printed as it stands. Code starts in it if and only
if it holds an open tag itself (`shielded_iff_of_compile`): two texts never make one together,
because no text of a parsed template stands beside another, and neither do a text and a tag. The
same holds of the content of every slot that is buffered. A template can hold such a text: host
code without its end is text (`not_shielded_unterminated`).
-/

namespace ViewCompiler.Template

/-! ## The texts of a tree -/

mutual

/-- The texts of a node, outside of slots. -/
def Node.texts : Node → List String
  | .text content => [content]
  | .conditional branches => branchTexts branches
  | .loop _ _ body => texts body
  | .existence _ body => texts body
  | _ => []

/-- The texts of nodes, outside of slots. -/
def texts : List Node → List String
  | [] => []
  | node :: nodes => node.texts ++ texts nodes

/-- The texts of branches, outside of slots. -/
def branchTexts : List Branch → List String
  | [] => []
  | ⟨_, body⟩ :: branches => texts body ++ branchTexts branches
end

mutual

/-- The texts of a node are those of its outline. -/
theorem Node.texts_outline (node : Node) : node.outline.texts = node.texts := by
  match node with
  | .text _ | .comment _ | .echo .. | .host .. | .flag .. | .component .. => rfl
  | .conditional branches => exact branchTexts_outline branches
  | .loop _ _ body | .existence _ body => exact texts_outline body

/-- The texts of nodes are those of their outlines. -/
theorem texts_outline (nodes : List Node) : texts (outline nodes) = texts nodes := by
  match nodes with
  | [] => rfl
  | node :: nodes => rw [outline, texts, texts, node.texts_outline, texts_outline nodes]

/-- The texts of branches are those of their outlines. -/
theorem branchTexts_outline (branches : List Branch) :
    branchTexts (branchesOutline branches) = branchTexts branches := by
  match branches with
  | [] => rfl
  | ⟨_, body⟩ :: branches =>
    rw [branchesOutline, branchTexts, branchTexts, texts_outline body,
      branchTexts_outline branches]
end

/-- Deduplication changes no text. -/
theorem texts_dedup (nodes : List Node) (taken : Names) :
    texts ((dedup nodes).run taken).1.1 = texts nodes := by
  rw [← texts_outline, outline_dedup, texts_outline]

mutual

/-- Turning the accesses of a node into calls changes no text. -/
theorem Node.texts_withCalls (node : Node) : node.withCalls.texts = node.texts := by
  match node with
  | .text _ | .comment _ | .echo .. | .host .. | .flag .. | .component .. => rfl
  | .conditional branches => exact branchTexts_withCalls branches
  | .loop _ _ body | .existence _ body => exact texts_withCalls body

/-- Turning accesses into calls changes no text. -/
theorem texts_withCalls (nodes : List Node) : texts (withCalls nodes) = texts nodes := by
  match nodes with
  | [] => rfl
  | node :: nodes => rw [withCalls, texts, texts, node.texts_withCalls, texts_withCalls nodes]

/-- Turning the accesses of branches into calls changes no text. -/
theorem branchTexts_withCalls (branches : List Branch) :
    branchTexts (branchesWithCalls branches) = branchTexts branches := by
  match branches with
  | [] => rfl
  | ⟨_, body⟩ :: branches =>
    rw [branchesWithCalls, branchTexts, branchTexts, texts_withCalls body,
      branchTexts_withCalls branches]
end

/-! ## The contents of slots -/

mutual

/-- The contents of the slots in a node as they are compiled, those of slots in slots among them.
The content of a default slot is trimmed before. -/
def Node.slotBodies : Node → List (List Node)
  | .conditional branches => branchSlotBodies branches
  | .loop _ _ body => slotBodies body
  | .existence _ body => slotBodies body
  | .component _ _ content slots =>
    trimSlot content :: slotBodies content ++ namedSlotBodies slots
  | _ => []

/-- The contents of the slots in nodes. -/
def slotBodies : List Node → List (List Node)
  | [] => []
  | node :: nodes => node.slotBodies ++ slotBodies nodes

/-- The contents of the slots in branches. -/
def branchSlotBodies : List Branch → List (List Node)
  | [] => []
  | ⟨_, body⟩ :: branches => slotBodies body ++ branchSlotBodies branches

/-- The contents of named slots and of the slots in them. -/
def namedSlotBodies : List NamedSlot → List (List Node)
  | [] => []
  | ⟨_, body⟩ :: slots => body :: slotBodies body ++ namedSlotBodies slots
end

mutual

/-- The contents of the slots in a node are those in its outline. -/
theorem Node.slotBodies_outline (node : Node) : node.outline.slotBodies = node.slotBodies := by
  match node with
  | .text _ | .comment _ | .echo .. | .host .. | .flag .. | .component .. => rfl
  | .conditional branches => exact branchSlotBodies_outline branches
  | .loop _ _ body | .existence _ body => exact slotBodies_outline body

/-- The contents of the slots in nodes are those in their outlines. -/
theorem slotBodies_outline (nodes : List Node) :
    slotBodies (outline nodes) = slotBodies nodes := by
  match nodes with
  | [] => rfl
  | node :: nodes =>
    rw [outline, slotBodies, slotBodies, node.slotBodies_outline, slotBodies_outline nodes]

/-- The contents of the slots in branches are those in their outlines. -/
theorem branchSlotBodies_outline (branches : List Branch) :
    branchSlotBodies (branchesOutline branches) = branchSlotBodies branches := by
  match branches with
  | [] => rfl
  | ⟨_, body⟩ :: branches =>
    rw [branchesOutline, branchSlotBodies, branchSlotBodies, slotBodies_outline body,
      branchSlotBodies_outline branches]
end

/-- Deduplication does not enter slots. -/
theorem slotBodies_dedup (nodes : List Node) (taken : Names) :
    slotBodies ((dedup nodes).run taken).1.1 = slotBodies nodes := by
  rw [← slotBodies_outline, outline_dedup, slotBodies_outline]

/-! ## Text beside text -/

/-- No text stands beside text, outside of slots. -/
def Separate (nodes : List Node) : Prop := Tidy (fun _ _ => True) nodes

mutual

/-- In a well-formed node no text stands beside text. -/
theorem Node.WellFormed.separate {node : Node} (h : node.WellFormed) :
    node.withCalls.Tidy fun _ _ => True := by
  match node with
  | .text _ | .comment _ | .echo .. | .host .. | .flag .. | .component .. => trivial
  | .conditional branches => exact BranchesWellFormed.separate h.2
  | .loop _ _ body => exact WellFormed.separate h.2.2
  | .existence _ body => exact WellFormed.separate h.2

/-- In a well-formed tree no text stands beside text. -/
theorem WellFormed.separate {nodes : List Node} (h : WellFormed nodes) :
    Separate (withCalls nodes) := by
  match nodes with
  | [] => trivial
  | node :: nodes =>
    obtain ⟨hnode, htext, hnodes⟩ := h
    have hisText : node.withCalls.isText = node.isText := by cases node <;> rfl
    have hstarts : startsWithText (withCalls nodes) = startsWithText nodes := by
      cases nodes with
      | nil => rfl
      | cons next nodes =>
        rw [withCalls, startsWithText_cons, startsWithText_cons]
        cases next <;> rfl
    refine ⟨hnode.separate, ?_, hnodes.separate⟩
    rwa [hisText, hstarts]

/-- In well-formed branches no text stands beside text. -/
theorem BranchesWellFormed.separate {branches : List Branch} (h : BranchesWellFormed branches) :
    BranchesTidy (fun _ _ => True) (branchesWithCalls branches) := by
  match branches with
  | [] => trivial
  | ⟨some _, body⟩ :: branches => exact ⟨h.2.1.separate, h.2.2.separate⟩
  | ⟨none, body⟩ :: branches =>
    obtain ⟨rfl, hbody⟩ := h
    exact ⟨hbody.separate, trivial⟩
end

mutual

/-- In the slots of a well-formed node no text stands beside text. -/
theorem Node.WellFormed.separate_slotBodies {node : Node} (h : node.WellFormed) :
    ∀ body ∈ node.withCalls.slotBodies, Separate body := by
  match node with
  | .text _ | .comment _ | .echo .. | .host .. | .flag .. => exact fun _ hbody => nomatch hbody
  | .conditional branches => exact BranchesWellFormed.separate_slotBodies h.2
  | .loop _ _ body => exact WellFormed.separate_slotBodies h.2.2
  | .existence _ body => exact WellFormed.separate_slotBodies h.2
  | .component _ _ content slots =>
    obtain ⟨-, hcontent, hslots⟩ := h
    refine List.forall_mem_append.mpr ⟨List.forall_mem_cons.mpr ⟨?_, ?_⟩, ?_⟩
    · exact tidy_trimSlot hcontent.separate
    · exact hcontent.separate_slotBodies
    · exact SlotsWellFormed.separate_slotBodies hslots

/-- In the content of a slot no text stands beside text. -/
theorem WellFormed.separate_slotBodies {nodes : List Node} (h : WellFormed nodes) :
    ∀ body ∈ slotBodies (withCalls nodes), Separate body := by
  match nodes with
  | [] => exact fun _ hbody => nomatch hbody
  | node :: nodes =>
    exact List.forall_mem_append.mpr ⟨h.1.separate_slotBodies, h.2.2.separate_slotBodies⟩

/-- In the slots of well-formed branches no text stands beside text. -/
theorem BranchesWellFormed.separate_slotBodies {branches : List Branch}
    (h : BranchesWellFormed branches) :
    ∀ body ∈ branchSlotBodies (branchesWithCalls branches), Separate body := by
  match branches with
  | [] => exact fun _ hbody => nomatch hbody
  | ⟨some _, body⟩ :: branches =>
    exact List.forall_mem_append.mpr ⟨h.2.1.separate_slotBodies, h.2.2.separate_slotBodies⟩
  | ⟨none, body⟩ :: branches =>
    obtain ⟨rfl, hbody⟩ := h
    refine List.forall_mem_append.mpr ⟨hbody.separate_slotBodies, fun _ hnone => nomatch hnone⟩

/-- In well-formed named slots, and the slots in them, no text stands beside text. -/
theorem SlotsWellFormed.separate_slotBodies {slots : List NamedSlot} (h : SlotsWellFormed slots) :
    ∀ body ∈ namedSlotBodies (slotsWithCalls slots), Separate body := by
  match slots with
  | [] => exact fun _ hbody => nomatch hbody
  | ⟨_, body⟩ :: slots =>
    obtain ⟨hbody, hslots⟩ := h
    refine List.forall_mem_append.mpr ⟨List.forall_mem_cons.mpr ⟨?_, ?_⟩, ?_⟩
    · exact hbody.separate
    · exact hbody.separate_slotBodies
    · exact hslots.separate_slotBodies
end

end ViewCompiler.Template

namespace ViewCompiler.Compile

open Template Php

variable {slot : SlotCompiler} {path : String}

/-! ## Markup of a tree -/

mutual

/-- The markup of a node has the texts of the node, and no text beside text. -/
theorem gives_markupOf_texts (node : Node) (h : node.Tidy fun _ _ => True) :
    Gives (markupOf slot path node) fun part => part.Spaced ∧ part.texts = node.texts := by
  match node with
  | .text _ | .comment _ | .flag .. => exact gives_pure ⟨trivial, rfl⟩
  | .host _ true | .host _ false => exact gives_pure ⟨trivial, rfl⟩
  | .echo expression escaped =>
    refine gives_pure ?_
    unfold echoMarkup
    split
    · exact ⟨trivial, rfl⟩
    · split <;> exact ⟨trivial, rfl⟩
  | .component .. => exact (gives_any _).bind fun _ _ => gives_pure ⟨trivial, rfl⟩
  | .conditional branches =>
    exact (gives_branchesMarkup_texts branches h).bind fun _ hbranches => gives_pure hbranches
  | .loop _ _ body | .existence _ body =>
    exact (gives_markup_texts body h).bind fun _ hbody => gives_pure hbody

/-- The markup of a tree has the texts of the tree, and no text beside text if the tree has
none. -/
theorem gives_markup_texts (nodes : List Node) (h : Separate nodes) :
    Gives (markup slot path nodes) fun parts =>
      Spaced parts ∧ Php.texts parts = Template.texts nodes := by
  match nodes with
  | [] => exact gives_pure ⟨trivial, rfl⟩
  | node :: nodes =>
    obtain ⟨hnode, htext, hnodes⟩ := h
    have hfirst := (gives_markupOf_texts node hnode).and (gives_markupOf_isText node)
    have hrest :=
      (gives_markup_texts nodes hnodes).and (gives_markup_opensWithText slot path nodes)
    refine hfirst.bind fun part hpart => hrest.bind fun parts hparts => gives_pure ?_
    obtain ⟨⟨hspaced, htexts⟩, hisText⟩ := hpart
    obtain ⟨⟨hspaced', htexts'⟩, hopens⟩ := hparts
    refine ⟨⟨hspaced, ?_, hspaced'⟩, ?_⟩
    · rwa [hisText, hopens]
    · rw [Php.texts, Template.texts, htexts, htexts']

/-- The markup of branches has the texts of the branches, and no text beside text. -/
theorem gives_branchesMarkup_texts (branches : List Branch)
    (h : BranchesTidy (fun _ _ => True) branches) :
    Gives (branchesMarkup slot path branches) fun parts =>
      BranchesSpaced parts ∧ Php.branchTexts parts = Template.branchTexts branches := by
  match branches with
  | [] => exact gives_pure ⟨trivial, rfl⟩
  | ⟨_, body⟩ :: branches =>
    refine (gives_markup_texts body h.1).bind fun parts hparts =>
      (gives_branchesMarkup_texts branches h.2).bind fun others hothers => gives_pure ?_
    refine ⟨⟨hparts.1, hothers.1⟩, ?_⟩
    rw [Php.branchTexts, Template.branchTexts, hparts.2, hothers.2]
end

/-- The content of a slot that is buffered is printed with the texts of the trimmed content. -/
theorem gives_slotCode_texts (path : String) (nesting : Nat) {nodes : List Node}
    (h : Separate nodes) :
    Gives (slotCode path nesting nodes) fun code => ∀ uses locals parts,
      code = .buffered uses locals parts →
        Spaced parts ∧ Php.texts parts = Template.texts (trimSlot nodes) := by
  cases nesting with
  | zero => exact gives_throw _
  | succ nesting =>
    rw [slotCode]
    split
    · exact gives_pure (by rintro _ _ _ ⟨⟩)
    · exact (gives_any _).bind fun _ _ => gives_pure (by rintro _ _ _ ⟨⟩)
    · exact (gives_any _).bind fun _ _ => (gives_any _).bind fun _ _ =>
        gives_pure (by rintro _ _ _ ⟨⟩)
    · have hdedup : Gives (taking (dedup (trimSlot nodes))) fun result =>
          Separate result.1 ∧ Template.texts result.1 = Template.texts (trimSlot nodes) := by
        intro taken result left hrun
        obtain rfl := congrArg Prod.fst (eq_of_run_taking hrun)
        exact ⟨tidy_dedup (tidy_trimSlot h) taken, texts_dedup (trimSlot nodes) taken⟩
      refine hdedup.bind fun result hresult => ?_
      refine (gives_markup_texts result.1 hresult.1).bind fun parts hparts => gives_pure ?_
      intro uses locals others heq
      obtain rfl := (SlotCode.buffered.inj heq).2.2
      exact ⟨hparts.1, hparts.2.trans hresult.2⟩

/-! ## Templates -/

/-- Whether code starts in the text that is printed for a tree is decided by the texts of the
parsed nodes, and in a buffered slot by the texts of its content. -/
structure ShieldedByTexts (path indent : String) (nodes tree : List Node) : Prop where
  markup : ∀ taken, ∃ parts left,
    (Compile.markup (slotsOf path tree) path tree).run taken = .ok (parts, left) ∧
      (Shielded indent parts ↔ ∀ content ∈ Template.texts nodes, ¬ HoldsOpenTag content)
  slots : ∀ body ∈ slotBodies tree, ∀ nesting taken uses locals parts left,
    (slotCode path nesting body).run taken = .ok (.buffered uses locals parts, left) →
      (Shielded indent parts ↔ ∀ content ∈ Template.texts (trimSlot body), ¬ HoldsOpenTag content)

/-- Every tree has markup. -/
theorem exists_run_markup (path : String) (tree : List Node) (taken : Names) :
    ∃ parts left, (markup (slotsOf path tree) path tree).run taken = .ok (parts, left) :=
  succeeds_markup (fun _ h => succeeds_slotCode path h) tree (Nat.le_refl _) taken

/-- Code starts in printed markup only where it starts in a text of the tree. -/
theorem shieldedByTexts {path indent : String} {nodes tree : List Node} (htree : Separate tree)
    (hslots : ∀ body ∈ slotBodies tree, Separate body)
    (htexts : Template.texts tree = Template.texts nodes) :
    ShieldedByTexts path indent nodes tree := by
  refine ⟨fun taken => ?_, fun body hbody nesting taken uses locals parts left hrun => ?_⟩
  · obtain ⟨parts, left, hrun⟩ := exists_run_markup path tree taken
    obtain ⟨hspaced, heq⟩ := gives_markup_texts tree htree _ _ _ hrun
    refine ⟨parts, left, hrun, ?_⟩
    rw [shielded_iff hspaced, heq, htexts]
  · obtain ⟨hspaced, heq⟩ := gives_slotCode_texts path nesting (hslots body hbody) _ _ _ hrun
      uses locals parts rfl
    rw [shielded_iff hspaced, heq]

/-- **Code starts in the text of a compiled template if and only if a text holds an open tag**: in
markup before and after repeated calls are bound, and in the content of every buffered slot. -/
theorem shielded_iff_of_compile {template path indent : String} {compiled : Compiled}
    (h : compile template path indent = .ok compiled) :
    ∃ nodes, parse template = .ok nodes ∧
      ∀ tree ∈ [withCalls nodes, ((dedup (withCalls nodes)).run []).1.1],
        ShieldedByTexts path indent nodes tree := by
  obtain ⟨nodes, hparse⟩ :=
    (exists_parse_iff template).mpr ((exists_compiled_iff template path indent).mp ⟨compiled, h⟩)
  have hwell := wellFormed_of_parse hparse
  refine ⟨nodes, hparse, List.forall_mem_cons.mpr ⟨?_, List.forall_mem_singleton.mpr ?_⟩⟩
  · exact shieldedByTexts hwell.separate hwell.separate_slotBodies (texts_withCalls nodes)
  · refine shieldedByTexts (tidy_dedup hwell.separate []) ?_ ?_
    · rw [slotBodies_dedup]
      exact hwell.separate_slotBodies
    · rw [texts_dedup, texts_withCalls]

/-- A buffered slot with an unterminated tag in capitals. -/
theorem shielded_iff_of_compile_capitals :
    ∃ compiled, compile "<x-a>b@if($c)d@endif<?PHP e</x-a>" defaultNamespace defaultIndent =
        .ok compiled ∧
      ∃ nodes, parse "<x-a>b@if($c)d@endif<?PHP e</x-a>" = .ok nodes ∧
        ∀ tree ∈ [withCalls nodes, ((dedup (withCalls nodes)).run []).1.1],
          ShieldedByTexts defaultNamespace defaultIndent nodes tree := by
  have hok : (compile "<x-a>b@if($c)d@endif<?PHP e</x-a>" defaultNamespace defaultIndent).isOk =
      true := by
    decide +kernel
  cases hcompile : compile "<x-a>b@if($c)d@endif<?PHP e</x-a>" defaultNamespace defaultIndent with
  | error e =>
    rw [hcompile] at hok
    cases hok
  | ok compiled => exact ⟨compiled, rfl, shielded_iff_of_compile hcompile⟩

/-- **Host code without its end is text, and code starts in it** where the template is printed in
the form of tags. -/
theorem not_shielded_unterminated :
    ∃ compiled nodes parts left,
      compile "@if($a)x@endif<?= 1" defaultNamespace defaultIndent = .ok compiled ∧
        parse "@if($a)x@endif<?= 1" = .ok nodes ∧
        (markup (slotsOf defaultNamespace (withCalls nodes)) defaultNamespace
          (withCalls nodes)).run [] = .ok (parts, left) ∧
        ¬ Shielded defaultIndent parts := by
  have hany : (parse "@if($a)x@endif<?= 1").toOption.any
      (Template.texts · == ["x", "<?= 1"]) = true := by
    decide +kernel
  obtain ⟨nodes, hparse, htexts⟩ := exists_parse_of_any hany
  obtain ⟨compiled, hcompile⟩ := (exists_compiled_iff _ defaultNamespace defaultIndent).mpr
    ((exists_parse_iff _).mp ⟨nodes, hparse⟩)
  obtain ⟨parts, left, hrun⟩ := exists_run_markup defaultNamespace (withCalls nodes) []
  have hseparate := (wellFormed_of_parse hparse).separate
  obtain ⟨hspaced, heq⟩ := gives_markup_texts _ hseparate _ _ _ hrun
  refine ⟨compiled, nodes, parts, left, hcompile, hparse, hrun, fun hshielded => ?_⟩
  rw [shielded_iff hspaced, heq, texts_withCalls, beq_iff_eq.mp htexts] at hshielded
  refine hshielded "<?= 1" (by simp) ⟨['<', '?', '='], rfl, ?_⟩
  exact ⟨[], [' ', '1'], rfl⟩

end ViewCompiler.Compile
