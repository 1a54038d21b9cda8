import Mathlib.Data.List.Chain
import ViewCompiler.Php.Printer
import ViewCompiler.Proofs.Php.LineEnds

/-!
# Open tags in printed markup

Printed markup is text between tags (`printMarkup_eq`), and code starts wherever an open tag stands
in it. Markup is shielded if every open tag in its output stands in one of its own tags, so that no
code starts in its text. A tag of markup starts and ends with a character that stands nowhere else
in an open tag, so where no text stands beside text an open tag is never made of two pieces
(`exists_piece_of_isOpenTag`). Markup without text beside text is therefore shielded if and only if
none of its texts holds an open tag (`shielded_iff`).
-/

namespace ViewCompiler.Php

open Template (flagText)
open Text (isBlank)

/-! ## Open tags -/

/-- The text starts code, or the printing of a value: the name of the long tag may be written in
any case, and a blank stands behind it. -/
def isOpenTag : List Char → Bool
  | ['<', '?', '='] => true
  | ['<', '?', a, b, c, d] => [a, b, c].map Char.toLower == "php".toList && isBlank d
  | _ => false

/-- Somewhere in the text code starts. -/
def HoldsOpenTag (content : String) : Prop :=
  ∃ tag, isOpenTag tag = true ∧ tag <:+: content.toList

/-- An open tag has an angle at its start and no other. -/
theorem angles_of_isOpenTag {tag : List Char} (h : isOpenTag tag = true) :
    ∃ rest, tag = '<' :: rest ∧ '<' ∉ rest ∧ '>' ∉ rest := by
  unfold isOpenTag at h
  split at h
  · exact ⟨_, rfl, by decide, by decide⟩
  · rename_i a b c d
    simp only [List.map_cons, List.map_nil, Bool.and_eq_true, beq_iff_eq] at h
    have hletter : ∀ x l : Char, x.toLower = l → l ∈ "php".toList → x ≠ '<' ∧ x ≠ '>' := by
      rintro x _ rfl hx
      constructor <;> (rintro rfl; exact absurd hx (by decide))
    obtain ⟨ha, hrest⟩ := List.cons.inj h.1
    obtain ⟨hb, hrest⟩ := List.cons.inj hrest
    obtain ⟨hc, -⟩ := List.cons.inj hrest
    have hblank : d ≠ '<' ∧ d ≠ '>' := by
      constructor <;> (rintro rfl; exact absurd h.2 (by decide))
    have ha := hletter a _ ha (by decide)
    have hb := hletter b _ hb (by decide)
    have hc := hletter c _ hc (by decide)
    refine ⟨_, rfl, ?_, ?_⟩ <;>
      simp [ha.1.symm, hb.1.symm, hc.1.symm, hblank.1.symm, ha.2.symm, hb.2.symm, hc.2.symm,
        hblank.2.symm]
  · cases h

/-! ## Pieces -/

/-- A piece of printed markup. -/
inductive Piece where
  /-- Text as it stands. -/
  | text (content : String)
  /-- A tag with its code. -/
  | tag (code : String)

namespace Piece

/-- The piece is text. -/
def isText : Piece → Bool
  | text _ => true
  | tag _ => false

/-- The piece as printed. -/
def source : Piece → List Char
  | text content => content.toList
  | tag code => code.toList

/-- Not both pieces are text. -/
def Apart (p q : Piece) : Prop := p.isText = true → q.isText = false

end Piece

/-- Pieces as printed. -/
def sources (pieces : List Piece) : List Char := pieces.flatMap Piece.source

/-- The source of pieces in two lists is one source after the other. -/
@[simp] theorem sources_append (pieces others : List Piece) :
    sources (pieces ++ others) = sources pieces ++ sources others := List.flatMap_append

/-- The source of pieces is that of the first one and that of the others. -/
@[simp] theorem sources_cons (piece : Piece) (pieces : List Piece) :
    sources (piece :: pieces) = piece.source ++ sources pieces := List.flatMap_cons

/-- The piece is text, or starts and ends like a tag. -/
def Piece.Framed (piece : Piece) : Prop :=
  piece.isText = false → ∃ inside, piece.source = '<' :: (inside ++ ['>'])

/-- **An open tag in the output of framed pieces stands in one of them**, if no text stands beside
text: the angles at the ends of a tag stand nowhere else in an open tag. -/
theorem exists_piece_of_isOpenTag {pieces : List Piece} {before tag after : List Char}
    (hframed : ∀ piece ∈ pieces, piece.Framed) (hapart : pieces.IsChain Piece.Apart)
    (htag : isOpenTag tag = true) (h : sources pieces = before ++ (tag ++ after)) :
    ∃ preceding piece following, pieces = preceding ++ piece :: following ∧
      sources preceding <+: before ∧ before ++ tag <+: sources preceding ++ piece.source := by
  obtain ⟨inner, hangle, hless, hgreater⟩ := angles_of_isOpenTag htag
  induction pieces generalizing before with
  | nil =>
    have hnil := (List.append_eq_nil_iff.mp (List.append_eq_nil_iff.mp h.symm).2).1
    rw [hnil] at hangle
    cases hangle
  | cons piece pieces ih =>
    obtain ⟨hpiece, hframed⟩ := List.forall_mem_cons.mp hframed
    obtain ⟨hnext, hapart⟩ := List.isChain_cons.mp hapart
    have hbehind : ∀ start, before = piece.source ++ start →
        sources pieces = start ++ (tag ++ after) →
        ∃ preceding p following, piece :: pieces = preceding ++ p :: following ∧
          sources preceding <+: before ∧ before ++ tag <+: sources preceding ++ p.source := by
      rintro start rfl hstart
      obtain ⟨preceding, p, following, rfl, hprefix, hin⟩ := ih hframed hapart hstart
      refine ⟨piece :: preceding, p, following, rfl, ?_, ?_⟩
      · rwa [sources_cons, List.prefix_append_right_inj]
      · rwa [sources_cons, List.append_assoc, List.append_assoc, List.prefix_append_right_inj]
    rw [sources_cons] at h
    rcases List.append_eq_append_iff.mp h with ⟨start, hstart, hrest⟩ | ⟨first, hfirst, hrest⟩
    · exact hbehind start hstart hrest
    rcases List.append_eq_append_iff.mp hrest with ⟨tail, rfl, -⟩ | ⟨tail, heq, htail⟩
    · exact ⟨[], piece, pieces, rfl, List.nil_prefix, tail, by rw [hfirst]; simp [sources]⟩
    -- The tag starts in this piece or at its end, and what is left of it stands behind the piece.
    cases first with
    | nil => exact hbehind [] (by simpa using hfirst.symm) (by simpa [heq] using htail)
    | cons c first =>
      obtain ⟨rfl, hinner⟩ := List.cons.inj (hangle.symm.trans heq)
      cases htext : piece.isText with
      | false =>
        obtain ⟨inside, hsource⟩ := hpiece htext
        have hlast : ('<' :: first).getLast? = some '>' := by
          rw [← List.getLast?_append_of_ne_nil before (List.cons_ne_nil _ _), ← hfirst, hsource,
            ← List.cons_append, List.getLast?_concat]
        have hmem : '>' ∈ first :=
          (List.mem_cons.mp (List.mem_of_getLast? hlast)).resolve_left (by decide)
        exact absurd (hinner ▸ List.mem_append_left tail hmem) hgreater
      | true =>
        cases tail with
        | nil =>
          exact ⟨[], piece, pieces, rfl, List.nil_prefix, [], by rw [hfirst, heq]; simp [sources]⟩
        | cons d tail =>
          cases pieces with
          | nil => cases htail
          | cons next pieces =>
            obtain ⟨inside, hsource⟩ := hframed next List.mem_cons_self (hnext next rfl htext)
            rw [sources_cons, hsource] at htail
            obtain ⟨rfl, -⟩ := List.cons.inj htail
            exact absurd (hinner ▸ List.mem_append_right first List.mem_cons_self) hless

/-! ## Markup in pieces -/

mutual

/-- A part of markup in pieces. -/
def Markup.pieces (indent : String) : Markup → List Piece
  | .text content => [.text content]
  | .comment content => [.tag (codeTag (Php.comment content))]
  | .host code => [.tag (codeTag code)]
  | .echo value => [.tag (echoTag (value.print ⟨indent, 0⟩))]
  | .conditional branches => branchPieces indent 0 branches ++ [.tag (codeTag "endif;")]
  | .loop head locals body =>
    .tag (codeTag (" ".intercalate ((header head ++ ":") :: locals.map assign))) ::
      pieces indent body ++ [.tag (codeTag "endforeach;")]
  | .existence expression body =>
    .tag (codeTag (existenceHeader expression ++ ":")) :: pieces indent body ++
      [.tag (codeTag "endif;")]
  | .flag kind expression =>
    [.tag (codeTag ("if (" ++ expression ++ ") \x7b echo " ++ stringLiteral (flagText kind) ++
      "; \x7d"))]

/-- Markup in pieces. -/
def pieces (indent : String) : List Markup → List Piece
  | [] => []
  | part :: parts => part.pieces indent ++ pieces indent parts

/-- Branches in pieces, from the branch with a number on. -/
def branchPieces (indent : String) (index : Nat) : List MarkupBranch → List Piece
  | [] => []
  | ⟨condition, body⟩ :: branches =>
    .tag (codeTag (branchHeader index condition ++ ":")) :: pieces indent body ++
      branchPieces indent (index + 1) branches
end

section Pieces

variable (indent : String)

mutual

/-- A part of markup is printed as the source of its pieces. -/
theorem Markup.print_eq (part : Markup) :
    (part.print indent).toList = sources (part.pieces indent) := by
  match part with
  | .text _ | .comment _ | .host _ | .echo _ | .flag .. =>
    rw [Markup.print, Markup.pieces, sources, List.flatMap_singleton]
    rfl
  | .conditional branches =>
    rw [Markup.print, Markup.pieces, String.toList_append, printBranches_eq, sources_append]
    simp [sources, Piece.source]
  | .loop head locals body =>
    rw [Markup.print, Markup.pieces]
    simp [printMarkup_eq body, sources, Piece.source]
  | .existence expression body =>
    rw [Markup.print, Markup.pieces]
    simp [printMarkup_eq body, sources, Piece.source]

/-- **Markup is printed piece by piece.** -/
theorem printMarkup_eq (parts : List Markup) :
    (printMarkup indent parts).toList = sources (pieces indent parts) := by
  match parts with
  | [] => rfl
  | part :: parts =>
    rw [printMarkup, pieces, String.toList_append, part.print_eq, printMarkup_eq parts,
      sources_append]

/-- Branches of markup are printed as the source of their pieces. -/
theorem printBranches_eq (index : Nat) (branches : List MarkupBranch) :
    (printBranches indent index branches).toList =
    sources (branchPieces indent index branches) := by
  match branches with
  | [] => rfl
  | ⟨condition, body⟩ :: branches =>
    rw [printBranches, branchPieces]
    simp [printMarkup_eq body, printBranches_eq (index + 1) branches, Piece.source]
end

/-- A tag around code is framed. -/
theorem framed_codeTag (code : String) : (Piece.tag (codeTag code)).Framed := fun _ =>
  ⟨"?php ".toList ++ (code.toList ++ " ?".toList), by simp [Piece.source, codeTag]⟩

/-- A tag around a value is framed. -/
theorem framed_echoTag (code : String) : (Piece.tag (echoTag code)).Framed := fun _ =>
  ⟨"?= ".toList ++ (code.toList ++ " ?".toList), by simp [Piece.source, echoTag]⟩

mutual

/-- All tags among the pieces of a part are framed. -/
theorem Markup.framed_pieces (part : Markup) : ∀ piece ∈ part.pieces indent, piece.Framed := by
  match part with
  | .text content =>
    rw [Markup.pieces, List.forall_mem_singleton]
    exact fun h => nomatch h
  | .comment _ | .host _ | .flag .. =>
    rw [Markup.pieces, List.forall_mem_singleton]
    exact framed_codeTag _
  | .echo value =>
    rw [Markup.pieces, List.forall_mem_singleton]
    exact framed_echoTag _
  | .conditional branches =>
    rw [Markup.pieces, List.forall_mem_append, List.forall_mem_singleton]
    exact ⟨framed_branchPieces 0 branches, framed_codeTag _⟩
  | .loop _ _ body | .existence _ body =>
    rw [Markup.pieces, List.forall_mem_append, List.forall_mem_cons, List.forall_mem_singleton]
    exact ⟨⟨framed_codeTag _, framed_pieces body⟩, framed_codeTag _⟩

/-- All tags among the pieces of markup are framed. -/
theorem framed_pieces (parts : List Markup) : ∀ piece ∈ pieces indent parts, piece.Framed := by
  match parts with
  | [] => exact fun _ h => nomatch h
  | part :: parts =>
    rw [pieces, List.forall_mem_append]
    exact ⟨part.framed_pieces, framed_pieces parts⟩

/-- All tags among the pieces of branches are framed. -/
theorem framed_branchPieces (index : Nat) (branches : List MarkupBranch) :
    ∀ piece ∈ branchPieces indent index branches, piece.Framed := by
  match branches with
  | [] => exact fun _ h => nomatch h
  | ⟨condition, body⟩ :: branches =>
    rw [branchPieces, List.forall_mem_append, List.forall_mem_cons]
    exact ⟨⟨framed_codeTag _, framed_pieces body⟩, framed_branchPieces (index + 1) branches⟩
end

end Pieces

/-! ## Text beside text -/

mutual

/-- In the part no text stands beside text. -/
def Markup.Spaced : Markup → Prop
  | .conditional branches => BranchesSpaced branches
  | .loop _ _ body => Spaced body
  | .existence _ body => Spaced body
  | _ => True

/-- No text stands beside text. -/
def Spaced : List Markup → Prop
  | [] => True
  | part :: parts =>
    part.Spaced ∧ (part.isText = true → opensWithText parts = false) ∧ Spaced parts

/-- In the branches no text stands beside text. -/
def BranchesSpaced : List MarkupBranch → Prop
  | [] => True
  | ⟨_, body⟩ :: branches => Spaced body ∧ BranchesSpaced branches
end

section Spaced

variable (indent : String)

/-- A part that is no text starts and ends with a tag. -/
theorem Markup.pieces_eq {part : Markup} (h : part.isText = false) :
    ∃ code rest code' rest', part.pieces indent = .tag code :: rest ∧
      part.pieces indent = rest' ++ [.tag code'] := by
  match part with
  | .comment _ | .host _ | .echo _ | .flag .. => exact ⟨_, [], _, [], rfl, rfl⟩
  | .conditional [] => exact ⟨_, [], _, [], rfl, rfl⟩
  | .conditional (⟨_, _⟩ :: _) | .loop .. | .existence .. => exact ⟨_, _, _, _, rfl, rfl⟩

/-- Markup whose first piece is text opens with text. -/
theorem opensWithText_of_head? {parts : List Markup} {piece : Piece}
    (h : (pieces indent parts).head? = some piece) (htext : piece.isText = true) :
    opensWithText parts = true := by
  match parts with
  | part :: parts =>
    rw [opensWithText, ← Bool.not_eq_false]
    intro hpart
    obtain ⟨code, rest, -, -, hstart, -⟩ := part.pieces_eq indent hpart
    rw [pieces, hstart] at h
    obtain rfl := Option.some.inj h
    cases htext

mutual

/-- In a part without text beside text the pieces are apart. -/
theorem Markup.apart_pieces (part : Markup) (h : part.Spaced) :
    (part.pieces indent).IsChain Piece.Apart := by
  match part with
  | .text _ | .comment _ | .host _ | .echo _ | .flag .. => exact List.isChain_singleton _
  | .conditional branches =>
    refine List.isChain_append.mpr ⟨apart_branchPieces 0 h, List.isChain_singleton _, ?_⟩
    intro piece _ next hnext _
    obtain rfl := Option.some.inj hnext
    rfl
  | .loop _ _ body | .existence _ body =>
    refine List.isChain_append.mpr ⟨?_, List.isChain_singleton _, ?_⟩
    · exact List.isChain_cons.mpr ⟨fun _ _ htag => (nomatch htag), apart_pieces h⟩
    · intro piece _ next hnext _
      obtain rfl := Option.some.inj hnext
      rfl

/-- In markup without text beside text no two pieces beside each other are text. -/
theorem apart_pieces {parts : List Markup} (h : Spaced parts) :
    (pieces indent parts).IsChain Piece.Apart := by
  match parts with
  | [] => exact List.isChain_nil
  | part :: parts =>
    obtain ⟨hpart, hopens, hparts⟩ := h
    refine List.isChain_append.mpr ⟨part.apart_pieces hpart, apart_pieces hparts, ?_⟩
    intro piece hlast next hnext htext
    have hisText : part.isText = true := by
      rw [← Bool.not_eq_false]
      intro hpart
      obtain ⟨-, -, code, rest, -, hend⟩ := part.pieces_eq indent hpart
      rw [hend, List.getLast?_concat] at hlast
      obtain rfl := Option.some.inj hlast
      cases htext
    rw [← Bool.not_eq_true]
    intro hnextText
    rw [opensWithText_of_head? indent hnext hnextText] at hopens
    cases hopens hisText

/-- In branches without text beside text the pieces are apart. -/
theorem apart_branchPieces {branches : List MarkupBranch} (index : Nat)
    (h : BranchesSpaced branches) :
    (branchPieces indent index branches).IsChain Piece.Apart := by
  match branches with
  | [] => exact List.isChain_nil
  | ⟨condition, body⟩ :: branches =>
    refine List.isChain_append.mpr ⟨?_, apart_branchPieces (index + 1) h.2, ?_⟩
    · exact List.isChain_cons.mpr ⟨fun _ _ htag => (nomatch htag), apart_pieces h.1⟩
    · intro piece _ next hnext _
      match branches with
      | ⟨_, _⟩ :: _ =>
        obtain rfl := Option.some.inj hnext
        rfl
end

end Spaced

/-! ## The texts of markup -/

mutual

/-- The texts of a part, in order. -/
def Markup.texts : Markup → List String
  | .text content => [content]
  | .conditional branches => branchTexts branches
  | .loop _ _ body => texts body
  | .existence _ body => texts body
  | _ => []

/-- The texts of markup, in order. -/
def texts : List Markup → List String
  | [] => []
  | part :: parts => part.texts ++ texts parts

/-- The texts of branches, in order. -/
def branchTexts : List MarkupBranch → List String
  | [] => []
  | ⟨_, body⟩ :: branches => texts body ++ branchTexts branches
end

section Texts

variable (indent : String) {content : String}

mutual

/-- The texts among the pieces of a part are those of the part. -/
theorem Markup.text_mem_pieces (part : Markup) :
    .text content ∈ part.pieces indent ↔ content ∈ part.texts := by
  match part with
  | .text _ => simp [Markup.pieces, Markup.texts]
  | .comment _ | .host _ | .echo _ | .flag .. => simp [Markup.pieces, Markup.texts]
  | .conditional branches =>
    simpa [Markup.pieces, Markup.texts] using text_mem_branchPieces 0 branches
  | .loop _ _ body | .existence _ body =>
    simpa [Markup.pieces, Markup.texts] using text_mem_pieces body

/-- The pieces that are text are the texts. -/
theorem text_mem_pieces (parts : List Markup) :
    .text content ∈ pieces indent parts ↔ content ∈ texts parts := by
  match parts with
  | [] => exact iff_of_false List.not_mem_nil List.not_mem_nil
  | part :: parts =>
    rw [pieces, texts, List.mem_append, List.mem_append, part.text_mem_pieces,
      text_mem_pieces parts]

/-- The texts among the pieces of branches are those of the branches. -/
theorem text_mem_branchPieces (index : Nat) (branches : List MarkupBranch) :
    .text content ∈ branchPieces indent index branches ↔ content ∈ branchTexts branches := by
  match branches with
  | [] => exact iff_of_false List.not_mem_nil List.not_mem_nil
  | ⟨condition, body⟩ :: branches =>
    have hbody := text_mem_pieces body
    have hrest := text_mem_branchPieces (index + 1) branches
    simp [branchPieces, branchTexts, hbody, hrest]
end

end Texts

/-! ## Shielded markup -/

/-- Every open tag in the output of the markup stands in a tag that the markup writes. -/
def Shielded (indent : String) (parts : List Markup) : Prop :=
  ∀ before tag after, (printMarkup indent parts).toList = before ++ (tag ++ after) →
    isOpenTag tag = true →
    ∃ preceding code following, pieces indent parts = preceding ++ .tag code :: following ∧
      sources preceding <+: before ∧ before ++ tag <+: sources preceding ++ code.toList

/-- **Markup without text beside text is shielded if and only if no text holds an open tag.** -/
theorem shielded_iff {indent : String} {parts : List Markup} (h : Spaced parts) :
    Shielded indent parts ↔ ∀ content ∈ texts parts, ¬ HoldsOpenTag content := by
  constructor
  · rintro hshielded content hcontent ⟨tag, htag, start, rest, hin⟩
    obtain ⟨pre, post, hpieces⟩ := List.append_of_mem ((text_mem_pieces indent _).mpr hcontent)
    have hprinted : (printMarkup indent parts).toList =
        (sources pre ++ start) ++ (tag ++ (rest ++ sources post)) := by
      rw [printMarkup_eq, hpieces, sources_append, sources_cons, Piece.source, ← hin]
      simp
    obtain ⟨preceding, code, following, heq, hstart, hend⟩ := hshielded _ tag _ hprinted htag
    obtain ⟨inner, rfl, -, -⟩ := angles_of_isOpenTag htag
    rw [hpieces] at heq
    -- The text stands behind the tag of the markup or before it, and the open tag with it.
    rcases List.append_eq_append_iff.mp heq with ⟨between, hbetween, hrest⟩ |
      ⟨between, hbetween, hrest⟩
    · cases between with
      | nil => cases (List.cons.inj hrest).1
      | cons first between =>
        obtain rfl := (List.cons.inj hrest).1
        have hlength := hstart.length_le
        rw [hbetween, sources_append, sources_cons, Piece.source, ← hin] at hlength
        simp only [List.length_append, List.length_cons] at hlength
        omega
    · cases between with
      | nil => cases (List.cons.inj hrest).1
      | cons first between =>
        obtain rfl := (List.cons.inj hrest).1
        have hlength := hend.length_le
        rw [hbetween, sources_append, sources_cons, Piece.source] at hlength
        simp only [List.length_append, List.length_cons] at hlength
        omega
  · intro hnone before tag after hprinted htag
    rw [printMarkup_eq] at hprinted
    obtain ⟨preceding, piece, following, hpieces, hstart, hend⟩ :=
      exists_piece_of_isOpenTag (framed_pieces indent parts) (apart_pieces indent h) htag hprinted
    cases piece with
    | tag code => exact ⟨preceding, code, following, hpieces, hstart, hend⟩
    | text content =>
      have hcontent : content ∈ texts parts :=
        (text_mem_pieces indent _).mp (hpieces ▸ by simp)
      obtain ⟨start, rfl⟩ := hstart
      rw [List.append_assoc, List.prefix_append_right_inj] at hend
      exact absurd ⟨tag, htag, (List.suffix_append start tag).isInfix.trans hend.isInfix⟩
        (hnone content hcontent)

end ViewCompiler.Php
