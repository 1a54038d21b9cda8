import ViewCompiler.Proofs.Expression.Reference
import ViewCompiler.Proofs.Template.Rounds
import ViewCompiler.Proofs.Template.Shape

/-!
# What a round of hoisting does

A round binds the wanted calls that occur more than once, and nothing else; each of their wanted
occurrences becomes the variable that holds its value, and no other character of the tree changes
(`hoistsRepeated`). What occurs in an expression is told by the cut of its text, which knows
nothing of a round, and the calls in literals are none. With the calls in place of the variables
again the tree is the old one.
-/

namespace ViewCompiler.Template

open Expression

/-! ## Occurrences -/

/-- A text is cut at its accessor calls, wherever one can be read outside of a literal. -/
abbrev CallCut (cs : List Char) (pieces : List CallPiece) : Prop :=
  CutFrom DottedPath.call (fun _ a _ => a.Readable) 0 cs pieces

/-- The pieces of a text are its cut at its calls. -/
theorem callCut_iff {cs : List Char} {pieces : List CallPiece} :
    CallCut cs pieces ↔ accessor.pieces cs = pieces :=
  cutFrom_iff accessor fun _ _ _ _ => accessor?_eq_some_iff

section Occurrences

variable (cut : String → List CallPiece) (wanted : Wanted)

/-- The wanted calls in the expressions of a tree, in order, with repetitions. -/
def occurrences (nodes : List Node) : List DottedPath :=
  (sites [] nodes).flatMap fun site =>
    ((cut site.expression).filterMap Piece.phrase?).filter fun a =>
      wanted (String.ofList a.name) site.shadowed

/-- What is written for a piece of an expression where the names are shadowed: the variable of a
hoist for its call if the call is wanted there, and the piece itself for all others. -/
inductive WrittenFor (hoists : List Hoist) (shadowed : List String) :
    CallPiece → List Char → Prop where
  | literal (l : Literal) : WrittenFor hoists shadowed (.literal l) l.text
  | char (c : Char) : WrittenFor hoists shadowed (.char c) [c]
  | held {h : Hoist} (hmem : h ∈ hoists)
    (hwanted : wanted (String.ofList h.call.name) shadowed = true) :
    WrittenFor hoists shadowed (.phrase h.call) ('$' :: h.name.toList)
  | kept {a : DottedPath}
    (hother : (∀ h ∈ hoists, h.call ≠ a) ∨ wanted (String.ofList a.name) shadowed = false) :
    WrittenFor hoists shadowed (.phrase a) a.call

/-- The expression is the one of the site with the variables of hoists in place of their wanted
calls. -/
def WrittenAt (hoists : List Hoist) (site : Site) (expression : String) : Prop :=
  ∃ texts, List.Forall₂ (WrittenFor wanted hoists site.shadowed) (cut site.expression) texts ∧
    expression.toList = texts.flatten

/-- The second tree with its local variables is the first one after a round of hoisting. -/
structure HoistsRepeated (nodes nodes' : List Node) (bindings : List Binding)
    (hoists : List Hoist) : Prop where
  bindings_eq : bindings = hoists.map fun h =>
    ⟨h.name, "data_get($" ++ String.ofList h.call.name ++ ", '" ++ String.ofList h.call.path ++
      "')"⟩
  mem_iff : ∀ a, a ∈ hoists.map Hoist.call ↔ 2 ≤ (occurrences cut wanted nodes).count a
  inOrder : (hoists.map Hoist.call).Pairwise fun a b =>
    (occurrences cut wanted nodes).idxOf a < (occurrences cut wanted nodes).idxOf b
  shape_eq : shape nodes' = shape nodes
  written : List.Forall₂ (WrittenAt cut wanted hoists) (sites [] nodes) (expressions nodes')
  restored : ∀ tree, shape tree = shape nodes' →
    expressions tree = (sites [] nodes).map (fun site =>
      String.ofList ((cut site.expression).flatMap (Piece.text DottedPath.call))) → tree = nodes

end Occurrences

/-! ## A round -/

variable {wanted : Wanted} {hoists : List Hoist}

/-- The wanted calls are the phrases at the sites where they are wanted. -/
theorem occurrences_pieces (nodes : List Node) :
    occurrences (fun e => accessor.pieces e.toList) wanted nodes = wantedCalls wanted nodes := rfl

/-- Calls are repeated that stand in the list twice at least. -/
theorem mem_repeated_iff {calls : List DottedPath} {a : DottedPath} :
    a ∈ repeated calls ↔ 2 ≤ calls.count a := by
  rw [repeated, List.mem_filter, List.mem_eraseDups, decide_eq_true_iff]
  exact ⟨fun h => h.2, fun h => ⟨List.count_pos_iff.mp (Nat.lt_of_succ_lt h), h⟩⟩

/-- What is written for a piece in a round. -/
theorem writtenFor_replaceCall (shadowed : List String) (p : CallPiece) :
    WrittenFor wanted hoists shadowed p (p.text (replaceCall wanted hoists shadowed)) := by
  match p with
  | .literal l => exact .literal l
  | .char c => exact .char c
  | .phrase a =>
    rw [Piece.text, replaceCall]
    split
    · rename_i hwanted
      split
      · rename_i h hfind
        have hcall := List.find?_some hfind
        obtain rfl : h.call = a := of_decide_eq_true hcall
        exact .held (List.mem_of_find?_eq_some hfind) hwanted
      · rename_i hfind
        refine .kept (.inl fun h hmem heq => ?_)
        exact List.find?_eq_none.mp hfind h hmem (decide_eq_true heq)
    · rename_i hwanted
      exact .kept (.inr (Bool.eq_false_iff.mpr hwanted))

/-- What is written for an expression in a round. -/
theorem writtenAt_rewritten (site : Site) :
    WrittenAt (fun e => accessor.pieces e.toList) wanted hoists site
      (rewritten wanted hoists site) := by
  refine ⟨(accessor.pieces site.expression.toList).map
    (Piece.text (replaceCall wanted hoists site.shadowed)), ?_, ?_⟩
  · exact List.forall₂_map_right_iff.mpr
      (List.forall₂_same.mpr fun p _ => writtenFor_replaceCall site.shadowed p)
  · rw [rewritten, Phrase.respell, String.toList_ofList, List.flatMap_def]

/-- A hoist binds its name to the call as it is spelled. -/
theorem binding_eq (h : Hoist) :
    h.binding = ⟨h.name,
      "data_get($" ++ String.ofList h.call.name ++ ", '" ++ String.ofList h.call.path ++
        "')"⟩ := by
  refine congrArg (Binding.mk h.name) ?_
  rw [← String.toList_inj, String.toList_ofList, call_eq]
  simp [callOpening, callEnding]

/-- **A round of hoisting** binds the calls that occur more than once, in the order of their first
occurrences, replaces their wanted occurrences, and changes nothing else. -/
theorem hoistsRepeated (wanted : Wanted) (nodes : List Node) (taken : Names) :
    ∃ (cut : String → List CallPiece) (hoists : List Hoist),
      (∀ e pieces, CallCut e.toList pieces ↔ pieces = cut e) ∧
      HoistsRepeated cut wanted nodes (hoistRepeated wanted nodes taken).1
        (hoistRepeated wanted nodes taken).2.1 hoists := by
  have hnamed := named_nameCalls taken (repeated (wantedCalls wanted nodes))
  refine ⟨fun e => accessor.pieces e.toList, roundHoists wanted nodes taken,
    fun e pieces => callCut_iff.trans eq_comm, ?_⟩
  rw [hoistRepeated_eq]
  refine ⟨List.map_congr_left fun h _ => binding_eq h, fun a => ?_, ?_,
    shape_mapSites _ [] nodes, ?_, fun tree hshape hexpressions => ?_⟩
  · rw [occurrences_pieces, roundHoists, hnamed.map_call]
    exact mem_repeated_iff
  · rw [occurrences_pieces, roundHoists, hnamed.map_call]
    exact (pairwise_eraseDups _).filter _
  · rw [expressions_mapSites]
    exact List.forall₂_map_right_iff.mpr
      (List.forall₂_same.mpr fun site _ => writtenAt_rewritten site)
  · refine eq_of_shape_of_expressions (hshape.trans (shape_mapSites _ [] nodes)) ?_
    rw [hexpressions, ← map_sites []]
    refine List.map_congr_left fun site _ => ?_
    have hspelled := spelled_pieces site.expression.toList
    rw [spelled] at hspelled
    rw [hspelled, String.ofList_toList]

end ViewCompiler.Template
