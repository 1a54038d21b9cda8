import ViewCompiler.Proofs.Keyed
import ViewCompiler.Proofs.Template.Entering

/-!
# Attributes that are written more than once

A component's tag may hold several attributes of one name, in any of the ways that attributes are
written. Reading them undoes writing them: each name has the last of its values and stands where it
was first (`attributes_spaced`). The tag is read as one lexeme whatever its values hold, so the
same attributes are those of the component that the tag is parsed as (`parse_closedTag`).
-/

namespace ViewCompiler.Template

open Text (trim)

/-- A tag that closes itself is parsed as one component. -/
theorem parse_closedTag {tag : String} (htag : isTagName tag.toList = true) (hslot : tag ≠ "slot")
    {source : List Char} (hbody : IsTagBody source true)
    (hends : EndsName (source ++ tagMark true)) {as : List Attribute}
    (has : attributes (String.ofList (trim source)) = as) :
    parse (String.ofList ("<x-".toList ++ (tag.toList ++ (source ++ tagMark true)))) =
      .ok [.component tag as [] []] := by
  have hsaying := saying?_openingTag htag hslot hbody hends has []
  rw [List.append_nil, ← List.append_nil ("<x-".toList ++ _), if_pos rfl] at hsaying
  have hread := Reading.enter_lexeme (by simp) hsaying .start
  rw [List.append_nil, Reading.enter] at hread
  rw [parse, lexemes, String.toList_ofList, hread]
  show (Reading.enter [] (Reading.start.add [.node (.component tag as [] [])])).bind _ = _
  rw [Reading.enter_nil]
  rfl

/-- The name with its marker is the key of an attribute. -/
theorem collectBy_spelling {as : List Attribute} (h : ∀ a ∈ as, IsAttributeName a.name.toList) :
    collectBy (fun a => (a.bound, a.name)) as = collectBy Attribute.spelling as :=
  collectBy_congr fun a ha b hb => (spelling_inj (h a ha) (h b hb)).symm

/-- **Reading attributes undoes writing them.** Attributes that are written with blanks between
them, each value in quotes that it does not hold, are read as if they were entered one after the
other, from their text and from a tag with that text: the names stand in the order of their first
attributes, and each has the value of its last one. -/
theorem attributes_spaced {tag : String} {texts : List AttributeText}
    (htag : isTagName tag.toList = true) (hslot : tag ≠ "slot") (h : ∀ t ∈ texts, t.Readable)
    (hapart : ∀ t ∈ texts.tail, t.gap ≠ []) :
    let entries := collectBy Attribute.spelling (texts.map AttributeText.entry)
    attributes (String.ofList (spaced texts)) = entries ∧
    parse (String.ofList ("<x-".toList ++ (tag.toList ++ ' ' :: (spaced texts ++ " />".toList)))) =
      .ok [.component tag entries [] []] ∧
    entries.map Attribute.spelling =
      (texts.map fun t => t.entry.spelling).eraseDups ∧
    ∀ name, entries.find? (·.spelling = name) =
      (texts.map AttributeText.entry).reverse.find? (·.spelling = name) := by
  intro entries
  have hnames : ∀ a ∈ texts.map AttributeText.entry, IsAttributeName a.name.toList :=
    List.forall_mem_map.mpr fun t ht => (h t ht).name
  have hblank : Blanks [' '] := List.forall_mem_singleton.mpr (by decide)
  refine ⟨?_, ?_, ?_, find?_collectBy _ _⟩
  · rw [attributes, String.toList_ofList, attributesIn_spaced h hapart, collectBy_spelling hnames]
  · have hstands : StandsInTag ([' '] ++ (spaced texts ++ [' '])) :=
      (standsInTag_blanks hblank).append
        ((standsInTag_spaced h).append (standsInTag_blanks hblank))
    have hread := attributes_trim_spaced h hapart hblank hblank
    rw [collectBy_spelling hnames] at hread
    have hparse := parse_closedTag htag hslot (hstands.isTagBody true) ⟨' ', rfl, by decide⟩ hread
    simpa [tagMark] using hparse
  · rw [map_collectBy, List.map_map]
    rfl

/-- A bound attribute that is written twice, with the end of a tag in its first value and a name
without a value before its second. -/
theorem attributes_spaced_twice :
    attributes ":a\u00a0=\n'/>' b\t:a=\"it's\"" =
      [⟨true, "a", some "it's"⟩, ⟨false, "b", none⟩] ∧
    parse "<x-t :a\u00a0=\n'/>' b\t:a=\"it's\" />" =
      .ok [.component "t" [⟨true, "a", some "it's"⟩, ⟨false, "b", none⟩] [] []] := by
  have hname : ∀ c, Expression.isWordChar c = true → IsAttributeName [c] := fun c hc =>
    ⟨c, [], rfl, hc, List.forall_mem_nil _⟩
  have hblank : ∀ c, Text.isBlank c = true → Blanks [c] := fun c hc =>
    List.forall_mem_singleton.mpr hc
  have hnone : Blanks [] := List.forall_mem_nil _
  have hvalue : ∀ {quote : Char} {value : String}, quote ∉ value.toList →
      ∀ v ∈ some value, quote ∉ v.toList := by
    rintro quote value h v hv
    obtain rfl := Option.some.inj hv
    exact h
  have h : ∀ t ∈ ([⟨⟨true, "a", some "/>"⟩, [], ['\u00a0'], ['\n'], '\''⟩,
      ⟨⟨false, "b", none⟩, [' '], [], [], '"'⟩,
      ⟨⟨true, "a", some "it's"⟩, ['\t'], [], [], '"'⟩] : List AttributeText), t.Readable := by
    refine List.forall_mem_cons.mpr ⟨?_, List.forall_mem_cons.mpr ⟨?_,
      List.forall_mem_singleton.mpr ?_⟩⟩
    · exact ⟨hname 'a' (by decide), hnone, hblank _ (by decide), hblank _ (by decide), rfl,
        hvalue (by decide)⟩
    · exact ⟨hname 'b' (by decide), hblank _ (by decide), hnone, hnone, rfl, nofun⟩
    · exact ⟨hname 'a' (by decide), hblank _ (by decide), hnone, hnone, rfl, hvalue (by decide)⟩
  have htag : isTagName "t".toList = true := by decide
  obtain ⟨hattributes, hparse, -⟩ := attributes_spaced htag (by decide) h (by decide)
  exact ⟨hattributes, hparse⟩

end ViewCompiler.Template
