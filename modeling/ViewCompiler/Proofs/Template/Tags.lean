import ViewCompiler.Proofs.Keyed
import ViewCompiler.Proofs.Template.Attributes
import ViewCompiler.Proofs.Template.Lexing

/-!
# Reading tags back

A tag is read up to where its body ends, with the attributes that are found in the body
(`saying?_openingTag`). The attributes of a tree are printed in one of the ways that are read back,
so a printed tag is read back too (`saying?_tag`).
-/

namespace ViewCompiler.Template

open Text (isBlank trim IsTrimmed FirstMark)
open Expression (StopsAt isWordChar)

/-! ## Tags of slots -/

/-- The tag of a component is no host code. -/
theorem host?_tag (cs : List Char) : host? ('<' :: 'x' :: cs) = none := by
  simp [host?, hostOpening?, Text.mark?, remainder?]

/-- A closing tag is no host code. -/
theorem host?_closingTag (cs : List Char) : host? ('<' :: '/' :: cs) = none := by
  simp [host?, hostOpening?, Text.mark?, remainder?]

/-- The opening tag of a slot is read back. -/
theorem saying?_slotOpening {name : List Char} (h : isSlotName name = true) (rest : List Char) :
    saying? ("<x-slot:".toList ++ (name ++ '>' :: rest)) =
      some (.slotOpening (String.ofList name), rest) := by
  cases name with
  | nil => cases h
  | cons c name =>
    have hchars : ∀ d ∈ c :: name, isSlotNameChar d = true := List.all_eq_true.mp h
    have hstop : StopsAt isSlotNameChar ('>' :: rest) := Expression.stopsAt_cons.mpr (by decide)
    have hread : slotOpening? ("<x-slot:".toList ++ (c :: name ++ '>' :: rest)) =
        some (.slotOpening (String.ofList (c :: name)), rest) := by
      simp only [slotOpening?, mark?_append, Option.bind_eq_bind, Option.bind_some,
        Expression.takeWhile_append_stop hchars hstop,
        Expression.dropWhile_append_stop hchars hstop]
      rfl
    refine (saying?_less _).trans (Option.or_eq_some_iff.mpr (.inr ⟨host?_tag _, ?_⟩))
    exact Option.or_eq_some_iff.mpr (.inl hread)

/-- The closing tag of a slot is read back. -/
theorem saying?_slotClosing (rest : List Char) :
    saying? ("</x-slot>".toList ++ rest) = some (.slotClosing, rest) := by
  have hopening : slotOpening? ("</x-slot>".toList ++ rest) = none := by
    simp [slotOpening?, Text.mark?, remainder?]
  refine (saying?_less _).trans (Option.or_eq_some_iff.mpr (.inr ⟨host?_closingTag _, ?_⟩))
  exact Option.or_eq_some_iff.mpr (.inr ⟨hopening, rfl⟩)

/-- The name of a tag is read back whole where no further character of a name follows. -/
theorem tagName?_append {tag rest : List Char} (h : isTagName tag = true)
    (hrest : StopsAt isTagChar rest) : tagName? (tag ++ rest) = some (tag, rest) := by
  cases tag with
  | nil => cases h
  | cons c tag =>
    rw [isTagName, Bool.and_eq_true, List.all_eq_true] at h
    rw [List.cons_append, tagName?, if_pos h.1, Expression.takeWhile_append_stop h.2 hrest,
      Expression.dropWhile_append_stop h.2 hrest]

/-- The name of a tag consists of its characters. -/
theorem isTagChar_of_mem {tag : List Char} (h : isTagName tag = true) :
    ∀ c ∈ tag, isTagChar c = true := by
  cases tag with
  | nil => exact fun _ hc => absurd hc List.not_mem_nil
  | cons c tag =>
    rw [isTagName, Bool.and_eq_true, List.all_eq_true] at h
    refine List.forall_mem_cons.mpr ⟨?_, h.2⟩
    rw [isTagChar, h.1, Bool.true_or, Bool.true_or]

/-- The name of a component is not the start of a named slot. -/
theorem slotOpening?_tag {tag rest : List Char} (h : isTagName tag = true)
    (hrest : StopsAt isTagChar rest) (hcolon : rest.head? ≠ some ':') :
    slotOpening? ("<x-".toList ++ (tag ++ rest)) = none := by
  have hmark : Text.mark? "<x-slot:" ("<x-".toList ++ (tag ++ rest)) = none := by
    refine Text.remainder?_eq_none_iff.mpr ?_
    rintro ⟨other, hother⟩
    have hslot : "slot:".toList ++ other = tag ++ rest := by simpa using hother
    have hdrop := congrArg (List.dropWhile isTagChar) hslot
    rw [Expression.dropWhile_append_stop (isTagChar_of_mem h) hrest] at hdrop
    refine hcolon ?_
    rw [← hdrop]
    rfl
  rw [slotOpening?, hmark]
  rfl

/-- The characters of tags may stand in names of attributes. -/
theorem isNameChar_of_isTagChar {c : Char} (h : isTagChar c = true) : isNameChar c = true := by
  simp only [isTagChar, isNameChar, isWordChar, Bool.or_eq_true] at h ⊢
  tauto

/-! ## Tags of components -/

/-- What ends the name of a component is no part of it, and no colon. -/
theorem EndsName.stopsAt {cs : List Char} (h : EndsName cs) :
    StopsAt isTagChar cs ∧ cs.head? ≠ some ':' := by
  obtain ⟨c, hc, hends⟩ := h
  simp only [Bool.or_eq_true, beq_iff_eq] at hends
  have hcases : isNameChar c = false ∧ c ≠ ':' := by
    rcases hends with (hblank | rfl) | rfl
    · refine ⟨isNameChar_of_isBlank hblank, ?_⟩
      rintro rfl
      exact absurd hblank (by decide)
    · exact ⟨by decide, by decide⟩
    · exact ⟨by decide, by decide⟩
  rw [Option.mem_def.mp hc]
  refine ⟨fun d hd => ?_, fun hcolon => hcases.2 (Option.some.inj hcolon)⟩
  obtain rfl : c = d := Option.some.inj (hc.symm.trans hd)
  cases htag : isTagChar c with
  | false => rfl
  | true =>
    rw [isNameChar_of_isTagChar htag] at hcases
    cases hcases.1

/-- **A tag that opens a component, or is one by itself, is read with the attributes in its
body.** -/
theorem saying?_openingTag {tag : String} (htag : isTagName tag.toList = true)
    (hslot : tag ≠ "slot") {source : List Char} {closed : Bool} (hbody : IsTagBody source closed)
    (hends : EndsName (source ++ tagMark closed)) {as : List Attribute}
    (has : attributes (String.ofList (trim source)) = as) (rest : List Char) :
    saying? ("<x-".toList ++ (tag.toList ++ (source ++ (tagMark closed ++ rest)))) =
      some (if closed then .node (.component tag as [] []) else .opening (.component tag as),
        rest) := by
  have hends' : EndsName (source ++ (tagMark closed ++ rest)) := by
    rwa [EndsName, head?_append_tagMark]
  obtain ⟨hstop, hcolon⟩ := hends'.stopsAt
  have hname : openingName? (tag.toList ++ (source ++ (tagMark closed ++ rest))) =
      some (tag.toList, source ++ (tagMark closed ++ rest)) := by
    obtain ⟨c, hc, hends⟩ := hends'
    obtain ⟨cs, hcons⟩ := List.head?_eq_some_iff.mp hc
    rw [openingName?, tagName?_append htag hstop, hcons]
    exact if_pos hends
  have hread : openingTag? ("<x-".toList ++
      (tag.toList ++ (source ++ (tagMark closed ++ rest)))) =
      some (if closed then .node (.component tag as [] []) else .opening (.component tag as),
        rest) := by
    simp only [openingTag?, mark?_append, hname, (tagBody?_append hbody).2 rest, has,
      Option.bind_eq_bind, Option.bind_some, String.ofList_toList, if_neg hslot]
    cases closed <;> rfl
  have hopening := slotOpening?_tag htag hstop hcolon
  have hclosing : ∀ cs, slotClosing? ('<' :: 'x' :: cs) = none := by
    intro cs
    simp [slotClosing?, Text.mark?, remainder?]
  refine (saying?_less _).trans (Option.or_eq_some_iff.mpr (.inr ⟨host?_tag _, ?_⟩))
  refine Option.or_eq_some_iff.mpr (.inr ⟨hopening, ?_⟩)
  refine Option.or_eq_some_iff.mpr (.inr ⟨hclosing _, ?_⟩)
  exact Option.or_eq_some_iff.mpr (.inl hread)

/-- The name of a component that is not `slot` does not close a slot. -/
theorem slotClosing?_tag {tag : String} (htag : isTagName tag.toList = true) (hslot : tag ≠ "slot")
    (rest : List Char) : slotClosing? ("</x-".toList ++ (tag.toList ++ '>' :: rest)) = none := by
  rw [Option.eq_none_iff_forall_ne_some]
  rintro ⟨saying, after⟩ hread
  obtain ⟨after', hend, -⟩ := Option.bind_eq_some_iff.mp hread
  obtain ⟨other, hmark, hend⟩ := Option.bind_eq_some_iff.mp hend
  have hother : "slot".toList ++ other = tag.toList ++ '>' :: rest := by
    simpa using Text.append_of_mark? hmark
  -- The name goes on behind `slot` where the tag should end.
  have htake := congrArg (List.takeWhile isTagChar) hother
  rw [Expression.takeWhile_append_stop (isTagChar_of_mem htag)
    (Expression.stopsAt_cons.mpr (by decide)),
    List.takeWhile_append_of_pos (Expression.forall_mem_of_all rfl)] at htake
  cases other with
  | nil => exact hslot (by rw [← String.toList_inj, ← htake]; rfl)
  | cons c other =>
    cases hc : isTagChar c with
    | false =>
      rw [List.takeWhile_cons, if_neg (by simp [hc]), List.append_nil] at htake
      exact hslot (by rw [← String.toList_inj, ← htake])
    | true =>
      have hname := isNameChar_of_isTagChar hc
      have hangle : c ≠ '>' := ne_of_isNameChar hname (by decide)
      simp [tagEnd?, isBlank_of_isNameChar hname, Text.mark?, remainder?, Ne.symm hangle] at hend

/-- The closing tag of a component is read back. -/
theorem saying?_tagClosing {tag : String} (htag : isTagName tag.toList = true)
    (hslot : tag ≠ "slot") (rest : List Char) :
    saying? ("</x-".toList ++ (tag.toList ++ '>' :: rest)) = some (.tagClosing tag, rest) := by
  have hstop : StopsAt isTagChar ('>' :: rest) := Expression.stopsAt_cons.mpr (by decide)
  have hopening : ∀ cs, slotOpening? ('<' :: '/' :: cs) = none := by
    intro cs
    simp [slotOpening?, Text.mark?, remainder?]
  have htagOpening : ∀ cs, openingTag? ('<' :: '/' :: cs) = none := by
    intro cs
    simp [openingTag?, Text.mark?, remainder?]
  have hread : closingTag? ("</x-".toList ++ (tag.toList ++ '>' :: rest)) =
      some (.tagClosing tag, rest) := by
    have hend : tagEnd? ('>' :: rest) = some rest := rfl
    simp only [closingTag?, mark?_append, tagName?_append htag hstop, hend, Option.bind_eq_bind,
      Option.bind_some, String.ofList_toList]
    rfl
  refine (saying?_less _).trans (Option.or_eq_some_iff.mpr (.inr ⟨host?_closingTag _, ?_⟩))
  refine Option.or_eq_some_iff.mpr (.inr ⟨hopening _, ?_⟩)
  refine Option.or_eq_some_iff.mpr (.inr ⟨slotClosing?_tag htag hslot rest, ?_⟩)
  exact Option.or_eq_some_iff.mpr (.inr ⟨htagOpening _, hread⟩)

/-! ## Printed tags -/

/-- The attribute in the way it is printed. -/
def Attribute.inTag (a : Attribute) : AttributeText := ⟨a, [' '], [], [], '"'⟩

/-- A canonical attribute is readable as it is printed. -/
theorem Attribute.Canonical.readable {a : Attribute} (h : a.Canonical) : a.inTag.Readable where
  name := h.name
  gap := List.forall_mem_singleton.mpr (by decide)
  before := List.forall_mem_nil _
  after := List.forall_mem_nil _
  quote := rfl
  value := h.value

/-- Printed attributes are spaced by single blanks. -/
theorem writtenAttributes_eq (as : List Attribute) :
    writtenAttributes as = spaced (as.map Attribute.inTag) := by
  rw [writtenAttributes, spaced, List.flatMap_map]
  rfl

/-- What stands between the name and the end of a printed tag. -/
def writtenBody (attributes : List Attribute) (closed : Bool) : List Char :=
  writtenAttributes attributes ++ if closed then [' '] else []

/-- The tag that opens a component, or the tag of a component that closes itself. -/
theorem saying?_tag {tag : String} {as : List Attribute} (htag : isTagName tag.toList = true)
    (hslot : tag ≠ "slot") (h : ∀ a ∈ as, a.Canonical)
    (hkeys : (as.map fun a => (a.bound, a.name)).Nodup) (closed : Bool) (rest : List Char) :
    saying? ("<x-".toList ++
        (tag.toList ++ (writtenBody as closed ++ (tagMark closed ++ rest)))) =
      some (if closed then .node (.component tag as [] []) else .opening (.component tag as),
        rest) := by
  have hreadable : ∀ t ∈ as.map Attribute.inTag, t.Readable :=
    List.forall_mem_map.mpr fun a ha => (h a ha).readable
  have hapart : ∀ t ∈ (as.map Attribute.inTag).tail, t.gap ≠ [] := by
    intro t ht
    obtain ⟨a, -, rfl⟩ := List.mem_map.mp (List.mem_of_mem_tail ht)
    exact List.cons_ne_nil _ _
  have hlast : Blanks (if closed then [' '] else []) := by
    cases closed with
    | false => exact List.forall_mem_nil _
    | true => exact List.forall_mem_singleton.mpr (by decide)
  have hbody : IsTagBody (writtenBody as closed) closed := by
    rw [writtenBody, writtenAttributes_eq]
    exact ((standsInTag_spaced hreadable).append (standsInTag_blanks hlast)).isTagBody closed
  have hends : EndsName (writtenBody as closed ++ tagMark closed) := by
    cases as with
    | nil => cases closed <;> exact ⟨_, rfl, by decide⟩
    | cons a as => exact ⟨' ', rfl, by decide⟩
  refine saying?_openingTag htag hslot hbody hends ?_ rest
  have hread := attributes_trim_spaced hreadable hapart (List.forall_mem_nil _) hlast
  have hentries : (as.map Attribute.inTag).map AttributeText.entry = as := by
    rw [List.map_map]
    exact List.map_id as
  rw [hentries, collectBy_eq_self hkeys] at hread
  rw [writtenBody, writtenAttributes_eq]
  exact hread

end ViewCompiler.Template
