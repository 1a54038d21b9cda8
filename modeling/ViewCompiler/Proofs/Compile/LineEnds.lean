import ViewCompiler.Proofs.Compile.LiteralText
import ViewCompiler.Proofs.Template.Levels

/-!
# Line ends after tags, piece by piece

PHP drops one line end directly after a tag, wherever the tag and the text after it come from.
`withoutLineEnds` does this to the pieces of markup, which know nothing of the tree, and leaves out
the texts that vanish. What is left are the pieces of the tree as it is printed
(`exists_streams_visible`): the flag that `visible` carries through bodies and branches tells
whether the last piece so far is a tag.
-/

namespace ViewCompiler.Php

open Template (dropLineEnd)

/-! ## The rule on pieces -/

/-- Pieces without one line end at the start of every text directly after a tag. -/
def dropAfterTags : List Piece → List Piece
  | [] => []
  | .tag code :: .text content :: pieces =>
    .tag code :: .text (dropLineEnd content) :: dropAfterTags pieces
  | piece :: pieces => piece :: dropAfterTags pieces

/-- The piece is empty text. -/
def Piece.isEmptyText : Piece → Bool
  | text content => content = ""
  | tag _ => false

/-- Pieces without the texts that are empty. -/
def withoutEmpty (pieces : List Piece) : List Piece := pieces.filter (!·.isEmptyText)

/-- Pieces as they are printed: without the line ends that are dropped, and without the texts of
which nothing is left. -/
def withoutLineEnds (pieces : List Piece) : List Piece := withoutEmpty (dropAfterTags pieces)

/-- Empty texts are left out piece by piece. -/
theorem withoutEmpty_cons (piece : Piece) (pieces : List Piece) :
    withoutEmpty (piece :: pieces) = withoutEmpty [piece] ++ withoutEmpty pieces := by
  rw [← List.singleton_append]
  exact List.filter_append [piece] pieces

/-- The pieces of a text as it is printed. -/
def printedPieces (afterTag : Bool) (content : String) : List Piece :=
  withoutEmpty [.text (printedText afterTag content)]

/-- Pieces as they are printed, directly after a tag or not. -/
def printedFrom (afterTag : Bool) : List Piece → List Piece
  | [] => []
  | .tag code :: pieces => .tag code :: printedFrom true pieces
  | .text content :: pieces => printedPieces afterTag content ++ printedFrom false pieces

/-- The pieces do not start with text. -/
def StartWithTag (pieces : List Piece) : Prop := ∀ piece ∈ pieces.head?, piece.isText = false

/-- Nothing needs a tag in front. -/
theorem startWithTag_nil : StartWithTag [] := fun _ h => nomatch h

/-- Pieces that start with a tag start with a tag. -/
theorem startWithTag_tag (code : String) (pieces : List Piece) :
    StartWithTag (.tag code :: pieces) := fun _ h => Option.some.inj h ▸ rfl

/-- What stands before pieces that do not start with text makes no difference to them. -/
theorem StartWithTag.printedFrom_eq {pieces : List Piece} (h : StartWithTag pieces)
    (afterTag : Bool) : printedFrom afterTag pieces = printedFrom true pieces := by
  match pieces with
  | [] => rfl
  | .tag _ :: _ => rfl
  | .text content :: _ => cases h _ rfl

/-- **The rule carries one flag**: whether the last piece was a tag. -/
theorem withoutLineEnds_eq (pieces : List Piece) :
    withoutLineEnds pieces = printedFrom false pieces := by
  unfold withoutLineEnds
  fun_induction dropAfterTags pieces with
  | case1 => rfl
  | case2 code content pieces ih =>
    rw [withoutEmpty_cons, withoutEmpty_cons (.text _), ih]
    rfl
  | case3 piece pieces hnot ih =>
    rw [withoutEmpty_cons, ih]
    match piece with
    | .text content => rfl
    | .tag code =>
      have hstart : StartWithTag pieces := by
        match pieces with
        | [] => exact startWithTag_nil
        | .tag _ :: _ => exact startWithTag_tag _ _
        | .text content :: pieces => exact absurd rfl (hnot code content pieces rfl)
      rw [printedFrom, ← hstart.printedFrom_eq false]
      rfl

/-! ## The pieces of markup -/

/-- The pieces of the second list are those of the first one as they are printed, directly after a
tag or not, in front of whatever starts with a tag. -/
def PrintedAs (indent : String) (afterTag : Bool) (parts parts' : List Markup) : Prop :=
  ∀ rest, StartWithTag rest → printedFrom afterTag (pieces indent parts ++ rest) =
    pieces indent parts' ++ printedFrom true rest

end ViewCompiler.Php

namespace ViewCompiler.Compile

open Template Php

variable {slot : SlotCompiler} {path : String} (indent : String)

mutual

/-- A node other than text becomes tags around its bodies, and behind the last of them stands a
text directly after a tag. -/
theorem paired_markupOf_visible (node : Node) (htext : node.isText = false) :
    Paired (fun part part' => ∀ afterTag rest, printedFrom afterTag (part.pieces indent ++ rest) =
        part'.pieces indent ++ printedFrom true rest)
      (markupOf slot path node) (markupOf slot path node.visible) := by
  match node with
  | .comment _ | .flag .. => exact paired_pure fun _ _ => rfl
  | .host _ true | .host _ false => exact paired_pure fun _ _ => rfl
  | .echo expression escaped =>
    have htag : ∃ value, echoMarkup expression escaped = .echo value := by
      unfold echoMarkup
      split
      · exact ⟨_, rfl⟩
      · split <;> exact ⟨_, rfl⟩
    obtain ⟨value, hvalue⟩ := htag
    refine paired_pure fun _ _ => ?_
    rw [hvalue]
    rfl
  | .component .. =>
    refine (paired_self _).bind fun value other hvalue => paired_pure fun _ _ => ?_
    rw [hvalue]
    rfl
  | .conditional branches =>
    refine (paired_branchesMarkup_visible branches).bind fun parts parts' hparts =>
      paired_pure fun afterTag rest => ?_
    have hend := hparts 0 afterTag _ (startWithTag_tag (codeTag "endif;") rest)
    rw [Markup.pieces, Markup.pieces, List.append_assoc, List.append_assoc]
    exact hend
  | .loop head bindings body =>
    refine (paired_markup_visible true body).bind fun parts parts' hparts =>
      paired_pure fun afterTag rest => ?_
    have hend := hparts _ (startWithTag_tag (codeTag "endforeach;") rest)
    rw [Markup.pieces, Markup.pieces, List.append_assoc, List.append_assoc]
    exact congrArg (_ :: ·) hend
  | .existence expression body =>
    refine (paired_markup_visible true body).bind fun parts parts' hparts =>
      paired_pure fun afterTag rest => ?_
    have hend := hparts _ (startWithTag_tag (codeTag "endif;") rest)
    rw [Markup.pieces, Markup.pieces, List.append_assoc, List.append_assoc]
    exact congrArg (_ :: ·) hend

/-- **The markup of a tree is printed as the markup of the tree as it is printed.** -/
theorem paired_markup_visible (afterTag : Bool) (nodes : List Node) :
    Paired (PrintedAs indent afterTag) (markup slot path nodes)
      (markup slot path (visible afterTag nodes)) := by
  match nodes with
  | [] => exact paired_pure fun rest hrest => hrest.printedFrom_eq afterTag
  | node :: nodes =>
    cases htext : node.isText with
    | true =>
      obtain ⟨text, rfl⟩ := exists_text_of_isText htext
      have hrest := paired_markup_visible false nodes
      rw [visible, markup, markupOf, pure_bind]
      by_cases hempty : printedText afterTag text = ""
      · have hnone : visibleText afterTag text = [] := if_pos hempty
        have hpiece : printedPieces afterTag text = [] := by
          simp [printedPieces, withoutEmpty, Piece.isEmptyText, hempty]
        rw [hnone, List.nil_append]
        refine hrest.map_left fun parts parts' hparts rest htag => ?_
        rw [pieces, Markup.pieces, List.append_assoc, List.singleton_append, printedFrom, hpiece,
          List.nil_append, hparts rest htag]
      · have hsome : visibleText afterTag text = [.text (printedText afterTag text)] :=
          if_neg hempty
        have hpiece : printedPieces afterTag text = [.text (printedText afterTag text)] := by
          simp [printedPieces, withoutEmpty, Piece.isEmptyText, hempty]
        rw [hsome, List.singleton_append, markup, markupOf, pure_bind]
        refine hrest.bind fun parts parts' hparts => paired_pure fun rest htag => ?_
        rw [pieces, Markup.pieces, List.append_assoc, List.singleton_append, printedFrom, hpiece,
          hparts rest htag]
        rfl
    | false =>
      rw [visible_cons htext, markup, markup]
      refine (paired_markupOf_visible node htext).bind fun part part' hpart =>
        (paired_markup_visible true nodes).bind fun parts parts' hparts =>
          paired_pure fun rest htag => ?_
      rw [pieces, pieces, List.append_assoc, List.append_assoc, hpart, hparts rest htag]

/-- The pieces of visible branches are those of the branches as they are printed. -/
theorem paired_branchesMarkup_visible (branches : List Branch) :
    Paired (fun parts parts' => ∀ index afterTag rest, StartWithTag rest →
        printedFrom afterTag (branchPieces indent index parts ++ rest) =
          branchPieces indent index parts' ++ printedFrom true rest)
      (branchesMarkup slot path branches)
        (branchesMarkup slot path (visibleBranches branches)) := by
  match branches with
  | [] => exact paired_pure fun index afterTag rest hrest => hrest.printedFrom_eq afterTag
  | ⟨condition, body⟩ :: branches =>
    rw [branchesMarkup, visibleBranches, branchesMarkup]
    refine (paired_markup_visible true body).bind fun parts parts' hparts =>
      (paired_branchesMarkup_visible branches).bind fun others others' hothers =>
        paired_pure fun index afterTag rest hrest => ?_
    have hnext : StartWithTag (branchPieces indent (index + 1) others ++ rest) := by
      match others with
      | [] => exact hrest
      | ⟨_, _⟩ :: _ => exact startWithTag_tag _ _
    have hbody := hparts _ hnext
    rw [hothers (index + 1) true rest hrest] at hbody
    rw [branchPieces, branchPieces, List.append_assoc, List.append_assoc]
    exact congrArg (_ :: ·) hbody
end

/-! ## Trees -/

/-- The markup of a tree is printed as the pieces; from the names that are taken before follow
those that are taken afterwards. -/
def StreamOf (path indent : String) (nodes : List Node) (taken left : Names)
    (stream : List Piece) :
    Prop :=
  ∃ parts, (markup (slotsOf path nodes) path nodes).run taken = .ok (parts, left) ∧
    stream = pieces indent parts ∧ (printMarkup indent parts).toList = sources stream

/-- Pieces, directly after a tag or not. -/
def behind (afterTag : Bool) (code : String) (stream : List Piece) : List Piece :=
  if afterTag then .tag code :: stream else stream

/-- Behind a tag that is added, line ends are dropped as they are from the pieces. -/
theorem withoutLineEnds_behind (afterTag : Bool) (code : String) (stream : List Piece) :
    withoutLineEnds (behind afterTag code stream) =
      behind afterTag code (printedFrom afterTag stream) := by
  rw [withoutLineEnds_eq]
  cases afterTag <;> rfl

/-- **The pieces of a tree as it is printed are the pieces of the tree as they are printed**:
without one line end after every tag and the texts of which nothing is left. No text of such a tree
is empty or stands beside text, at any level, if it was so before. -/
theorem exists_streams_visible (path indent : String) (afterTag : Bool) (nodes : List Node)
    (taken : Names) :
    (∃ stream printed left, StreamOf path indent nodes taken left stream ∧
      StreamOf path indent (visible afterTag nodes) taken left printed ∧
      ∀ code, withoutLineEnds (behind afterTag code stream) = behind afterTag code printed) ∧
    ((∀ level ∈ levels nodes, TextsApart level) →
      ∀ level ∈ levels (visible afterTag nodes), TextsApart level) := by
  refine ⟨?_, fun h => textsApart_visible_levels h afterTag⟩
  obtain ⟨parts, left, hparts⟩ := exists_run_markup path nodes taken
  obtain ⟨printed, hprinted, hsame⟩ :=
    paired_markup_visible indent afterTag nodes taken parts left hparts
  have hslots : slotsOf path (visible afterTag nodes) = slotsOf path nodes := by
    rw [slotsOf, slotsOf, slotDepth_visible]
  refine ⟨_, _, left, ⟨parts, hparts, rfl, printMarkup_eq indent parts⟩,
    ⟨printed, hslots ▸ hprinted, rfl, printMarkup_eq indent printed⟩, fun code => ?_⟩
  have hpieces := hsame [] startWithTag_nil
  rw [List.append_nil, printedFrom, List.append_nil] at hpieces
  rw [withoutLineEnds_behind, hpieces]

/-- A text vanishes between two tags, and one loses its line end in a branch. -/
def vanishingTree : List Node :=
  [.text "\n", .comment "c", .text "\r\n", .conditional [⟨some "$a", [.text "\n\nx"]⟩, ⟨none, []⟩],
    .component "b" [] [.text "\n"] []]

/-- The text in front of the tree stands after a tag too. -/
theorem exists_streams_visible_vanishingTree :
    (∀ level ∈ levels vanishingTree, TextsApart level) ∧
    (∃ stream printed left, StreamOf defaultNamespace defaultIndent vanishingTree [] left stream ∧
      StreamOf defaultNamespace defaultIndent (visible true vanishingTree) [] left printed ∧
      ∀ code, withoutLineEnds (behind true code stream) = behind true code printed) ∧
    ∀ level ∈ levels (visible true vanishingTree), TextsApart level := by
  have hlevels : ∀ level ∈ levels vanishingTree, TextsApart level := by
    simp only [vanishingTree, levels, Template.inner, Node.inner, branchLevels, slotLevels,
      List.append_nil, List.nil_append, List.cons_append, List.forall_mem_cons]
    refine ⟨⟨?_, ?_⟩, ⟨?_, ?_⟩, ⟨?_, ?_⟩, ⟨?_, ?_⟩, fun _ h => absurd h List.not_mem_nil⟩ <;>
      simp [Node.isText]
  obtain ⟨hstreams, hapart⟩ :=
    exists_streams_visible defaultNamespace defaultIndent true vanishingTree []
  exact ⟨hlevels, hstreams, hapart hlevels⟩

end ViewCompiler.Compile
