import Mathlib.Data.List.Basic
import ViewCompiler.Proofs.Template.Tokens
import ViewCompiler.Proofs.Text.Blank

/-!
# Reading attributes back

An attribute can be written in many ways: blanks may stand around its equals sign, and its value
may be in either quotes. `AttributeText` is one of them, and it is `Readable` if the attribute is
found in it again. Attributes with blanks between them are found one by one
(`attributesIn_spaced`), because a value goes up to the next quote of its kind, so that no part of
it is an attribute, and because what follows a name without a value is not an equals sign. The end
of the tag is looked for behind them (`standsInTag_spaced`), because an angle or a slash inside a
tag stands between the quotes of a value.
-/

namespace ViewCompiler.Template

open Text (isBlank trim IsTrimmed FirstMark)
open Expression (StopsAt isQuote isWordChar)

/-! ## Characters of names -/

/-- A word character may stand in an attribute's name. -/
theorem isNameChar_of_isWordChar {c : Char} (h : isWordChar c = true) : isNameChar c = true := by
  simp [isNameChar, h]

/-- A character of a name differs from every character that no name holds. -/
theorem ne_of_isNameChar {c d : Char} (h : isNameChar c = true) (hd : isNameChar d = false) :
    c ≠ d := by
  rintro rfl
  rw [hd] at h
  cases h

/-- A character of a name is not blank. -/
theorem isBlank_of_isNameChar {c : Char} (h : isNameChar c = true) : isBlank c = false := by
  have hcases : (48 ≤ c.toNat ∧ c.toNat ≤ 58) ∨ (65 ≤ c.toNat ∧ c.toNat ≤ 122) ∨ c = '.' ∨
      c = '-' := by
    have hclasses : isNameChar c = ((c.val ≥ 'A'.val ∧ c.val ≤ 'Z'.val : Bool) ||
        (c.val ≥ 'a'.val && c.val ≤ 'z'.val) || (c.val ≥ '0'.val && c.val ≤ '9'.val) ||
        c == '_' || c == '.' || c == ':' || c == '-') := rfl
    have hval : c.toNat = c.val.toNat := rfl
    simp only [hclasses, Bool.or_eq_true, Bool.and_eq_true, decide_eq_true_eq, beq_iff_eq,
      UInt32.le_iff_toNat_le, ge_iff_le] at h
    rcases h with (((((h | h) | h) | rfl) | rfl) | rfl) | rfl
    all_goals first | (simp at h; omega) | decide
  rcases hcases with h | h | rfl | rfl
  · simp [isBlank]
    omega
  · simp [isBlank]
    omega
  · decide
  · decide

/-- No name holds a blank. -/
theorem isNameChar_of_isBlank {c : Char} (h : isBlank c = true) : isNameChar c = false := by
  cases hname : isNameChar c with
  | false => rfl
  | true =>
    rw [isBlank_of_isNameChar hname] at h
    cases h

/-- The quotes are the single and the double one. -/
theorem isQuote_cases {c : Char} (h : isQuote c = true) : c = '\'' ∨ c = '"' := by
  simpa [isQuote] using h

/-- No name holds a quote. -/
theorem isQuote_of_isNameChar {c : Char} (h : isNameChar c = true) : isQuote c = false := by
  cases hquote : isQuote c with
  | false => rfl
  | true => rcases isQuote_cases hquote with rfl | rfl <;> exact absurd h (by decide)

/-- A quote is not blank. -/
theorem isBlank_of_isQuote {c : Char} (h : isQuote c = true) : isBlank c = false := by
  rcases isQuote_cases h with rfl | rfl <;> decide

/-! ## Ways of writing an attribute -/

/-- The text can name an attribute. -/
def IsAttributeName (cs : List Char) : Prop :=
  ∃ c rest, cs = c :: rest ∧ isWordChar c = true ∧ ∀ d ∈ rest, isNameChar d = true

/-- A way of writing an attribute: blanks before it and around its equals sign, and the quotes of
its value. -/
structure AttributeText where
  entry : Attribute
  gap : List Char
  before : List Char
  after : List Char
  quote : Char

/-- The attribute as it is written, without what stands before it. -/
def AttributeText.source (t : AttributeText) : List Char :=
  match t.entry.value with
  | some value =>
    t.entry.spelling.toList ++
      (t.before ++ '=' :: (t.after ++ t.quote :: (value.toList ++ [t.quote])))
  | none => t.entry.spelling.toList

/-- Attributes, each behind its blanks. -/
def spaced (texts : List AttributeText) : List Char := texts.flatMap fun t => t.gap ++ t.source

/-- The text of spaced attributes is the first gap, the first attribute and the rest. -/
theorem spaced_cons (t : AttributeText) (texts : List AttributeText) :
    spaced (t :: texts) = t.gap ++ (t.source ++ spaced texts) := by
  rw [spaced, List.flatMap_cons, List.append_assoc]
  rfl

/-- The attribute can be read back: what stands around its parts are blanks, and its value is in
quotes that it does not hold. -/
structure AttributeText.Readable (t : AttributeText) : Prop where
  name : IsAttributeName t.entry.name.toList
  gap : Blanks t.gap
  before : Blanks t.before
  after : Blanks t.after
  quote : isQuote t.quote = true
  value : ∀ value ∈ t.entry.value, t.quote ∉ value.toList

/-- The name of an attribute with its marker. -/
theorem exists_spelling {a : Attribute} (h : IsAttributeName a.name.toList) :
    ∃ c cs, a.spelling.toList = c :: cs ∧ ∀ d ∈ c :: cs, isNameChar d = true := by
  obtain ⟨c, rest, hname, hc, hrest⟩ := h
  have hchars : ∀ d ∈ c :: rest, isNameChar d = true :=
    List.forall_mem_cons.mpr ⟨isNameChar_of_isWordChar hc, hrest⟩
  rw [Attribute.spelling]
  cases a.bound with
  | false => exact ⟨c, rest, hname, hchars⟩
  | true =>
    refine ⟨':', c :: rest, ?_, List.forall_mem_cons.mpr ⟨by decide, hchars⟩⟩
    rw [if_pos rfl, String.toList_append, hname]
    rfl

/-- A readable attribute starts with a character that a name may hold. -/
theorem AttributeText.Readable.exists_source {t : AttributeText} (h : t.Readable) :
    ∃ c cs, t.source = c :: cs ∧ isNameChar c = true := by
  obtain ⟨c, cs, hspelling, hchars⟩ := exists_spelling h.name
  rw [source, hspelling]
  cases t.entry.value with
  | none => exact ⟨c, cs, rfl, hchars c List.mem_cons_self⟩
  | some value => exact ⟨c, _, rfl, hchars c List.mem_cons_self⟩

/-- A name and its marker can be told from how they are written. -/
theorem spelling_inj {a b : Attribute} (ha : IsAttributeName a.name.toList)
    (hb : IsAttributeName b.name.toList) :
    a.spelling = b.spelling ↔ (a.bound, a.name) = (b.bound, b.name) := by
  have hcolon : ∀ {name other : String}, IsAttributeName name.toList → name ≠ ":" ++ other := by
    rintro name other ⟨c, rest, hname, hc, -⟩ rfl
    obtain rfl : ':' = c := by simpa using congrArg List.head? hname
    exact absurd hc (by decide)
  obtain ⟨bound, name, value⟩ := a
  obtain ⟨bound', name', value'⟩ := b
  cases bound <;> cases bound'
  · simp [Attribute.spelling]
  · simpa [Attribute.spelling] using hcolon ha
  · simpa [Attribute.spelling] using (hcolon hb).symm
  · simp [Attribute.spelling, String.append_right_inj]

/-! ## Reading an attribute -/

/-- The name of an attribute is read back whole where no further name character follows. -/
theorem attributeName?_append {a : Attribute} (h : IsAttributeName a.name.toList)
    {rest : List Char} (hrest : StopsAt isNameChar rest) :
    attributeName? (a.spelling.toList ++ rest) = some (a.bound, a.name.toList, rest) := by
  obtain ⟨c, cs, hname, hc, hcs⟩ := h
  have htake := Expression.takeWhile_append_stop hcs hrest
  have hdrop := Expression.dropWhile_append_stop hcs hrest
  rw [Attribute.spelling]
  cases a.bound with
  | false =>
    have hcolon : c ≠ ':' := by
      rintro rfl
      exact absurd hc (by decide)
    rw [if_neg Bool.false_ne_true, hname, List.cons_append]
    unfold attributeName?
    split
    · rename_i heq
      exact absurd (List.cons.inj heq).1 hcolon
    · rename_i heq
      obtain ⟨rfl, rfl⟩ := List.cons.inj heq
      rw [if_pos hc, htake, hdrop]
    · rename_i heq
      cases heq
  | true =>
    have hspelled : (":" ++ a.name).toList ++ rest = ':' :: c :: (cs ++ rest) := by
      rw [String.toList_append, hname]
      rfl
    rw [if_pos rfl, hspelled, attributeName?, if_pos hc, htake, hdrop, hname]

/-- A quoted value ends at the first quote of its kind. -/
theorem firstMark_quote {quote : Char} {value : List Char} (h : quote ∉ value) :
    FirstMark (fun _ => false) [quote] value := by
  induction value with
  | nil => exact Text.cut?_of_remainder? (remainder?_eq_some_iff.mpr rfl)
  | cons c value ih =>
    rw [List.mem_cons, not_or] at h
    refine Text.firstMark_cons (fun hstarts => h.1 ?_) rfl (ih h.2)
    exact (List.cons_prefix_cons.mp hstarts).1

/-- A quoted value is read back whole, whatever follows its closing quote. -/
theorem quotedValue?_append {quote : Char} (hquote : isQuote quote = true) {value : List Char}
    (h : quote ∉ value) (rest : List Char) :
    quotedValue? (quote :: (value ++ quote :: rest)) = some (value, rest) := by
  have hcut : Text.cutAt? [quote] (value ++ quote :: rest) = some (value, rest) :=
    (Text.cut?_append_iff rest).mpr (firstMark_quote h)
  rcases isQuote_cases hquote with rfl | rfl <;> exact hcut

/-- Dropping blanks stops at the first character that is not one. -/
theorem dropWhile_blanks {blanks : List Char} (h : Blanks blanks) {c : Char}
    (hc : isBlank c = false) (rest : List Char) :
    (blanks ++ c :: rest).dropWhile isBlank = c :: rest := by
  rw [List.dropWhile_append_of_pos h, List.dropWhile_cons, if_neg (by simp [hc])]

/-- The value after an equals sign is read back, with any blanks around the sign. -/
theorem assignedValue?_append {before after : List Char} (hbefore : Blanks before)
    (hafter : Blanks after) {quote : Char} (hquote : isQuote quote = true) {value : List Char}
    (h : quote ∉ value) (rest : List Char) :
    assignedValue? (before ++ '=' :: (after ++ quote :: (value ++ quote :: rest))) =
      some (value, rest) := by
  rw [assignedValue?, dropWhile_blanks hbefore (by decide)]
  simp only [dropWhile_blanks hafter (isBlank_of_isQuote hquote)]
  exact quotedValue?_append hquote h rest

/-- No value is read where the next attribute stands. -/
theorem assignedValue?_spaced {texts : List AttributeText} (h : ∀ t ∈ texts, t.Readable) :
    assignedValue? (spaced texts) = none := by
  cases texts with
  | nil => rfl
  | cons t texts =>
    have ht := h t List.mem_cons_self
    obtain ⟨c, cs, hsource, hc⟩ := ht.exists_source
    rw [assignedValue?, spaced_cons, hsource, List.cons_append,
      dropWhile_blanks ht.gap (isBlank_of_isNameChar hc)]
    split
    · rename_i heq
      exact absurd (List.cons.inj heq).1 (ne_of_isNameChar hc (by decide))
    · rfl

/-- A name that ends in front of a text also ends in front of blanks and that text. -/
theorem stopsAt_of_blanks {blanks : List Char} (h : Blanks blanks) {rest : List Char}
    (hrest : StopsAt isNameChar rest) : StopsAt isNameChar (blanks ++ rest) := by
  cases blanks with
  | nil => exact hrest
  | cons c blanks =>
    exact Expression.stopsAt_cons.mpr (isNameChar_of_isBlank (h c List.mem_cons_self))

/-- An attribute is read up to where it ends, unless a name or a value goes on there. -/
theorem attribute?_source {t : AttributeText} (h : t.Readable) {rest : List Char}
    (hstop : StopsAt isNameChar rest) (hvalue : assignedValue? rest = none) :
    attribute? (t.source ++ rest) = some (t.entry, rest) := by
  obtain ⟨⟨bound, name, value⟩, gap, before, after, quote⟩ := t
  cases value with
  | none =>
    rw [attribute?, AttributeText.source, attributeName?_append h.name hstop, Option.map_some]
    simp only [hvalue, String.ofList_toList]
  | some value =>
    have hsource : AttributeText.source ⟨⟨bound, name, some value⟩, gap, before, after, quote⟩ ++
        rest = (Attribute.spelling ⟨bound, name, some value⟩).toList ++
          (before ++ '=' :: (after ++ quote :: (value.toList ++ quote :: rest))) := by
      simp [AttributeText.source]
    have hequals : StopsAt isNameChar
        (before ++ '=' :: (after ++ quote :: (value.toList ++ quote :: rest))) :=
      stopsAt_of_blanks h.before (Expression.stopsAt_cons.mpr (by decide))
    rw [attribute?, hsource, attributeName?_append h.name hequals, Option.map_some]
    simp only [assignedValue?_append h.before h.after h.quote (h.value value rfl),
      String.ofList_toList]

/-! ## Reading all attributes -/

/-- Blanks in front of the attributes of a tag say nothing. -/
theorem attributesIn_blanks {blanks : List Char} (h : Blanks blanks) (cs : List Char) :
    attributesIn (blanks ++ cs) = attributesIn cs := by
  induction blanks with
  | nil => rfl
  | cons c blanks ih =>
    obtain ⟨hc, hblanks⟩ := List.forall_mem_cons.mp h
    have hname : attributeName? (c :: (blanks ++ cs)) = none := by
      have hword : ¬ isWordChar c = true := fun hword => by
        rw [isBlank_of_isNameChar (isNameChar_of_isWordChar hword)] at hc
        cases hc
      unfold attributeName?
      split
      · rename_i heq
        rw [(List.cons.inj heq).1] at hc
        exact absurd hc (by decide)
      · rename_i heq
        rw [← (List.cons.inj heq).1, if_neg hword]
      · rfl
    rw [List.cons_append, attributesIn]
    split
    · rename_i heq
      rw [attribute?, hname] at heq
      cases heq
    · exact ih hblanks

/-- **Attributes with blanks between them are found one by one.** -/
theorem attributesIn_spaced {texts : List AttributeText} (h : ∀ t ∈ texts, t.Readable)
    (hapart : ∀ t ∈ texts.tail, t.gap ≠ []) :
    attributesIn (spaced texts) = texts.map AttributeText.entry := by
  induction texts with
  | nil => rw [spaced, List.flatMap_nil, attributesIn, List.map_nil]
  | cons t texts ih =>
    obtain ⟨ht, htexts⟩ := List.forall_mem_cons.mp h
    have hstop : StopsAt isNameChar (spaced texts) := by
      cases texts with
      | nil => exact Expression.stopsAt_nil _
      | cons t' texts =>
        have hgap : t'.gap ≠ [] := hapart t' List.mem_cons_self
        obtain ⟨c, gap, hcons⟩ := List.exists_cons_of_ne_nil hgap
        have hblank : isBlank c = true :=
          (htexts t' List.mem_cons_self).gap c (by rw [hcons]; exact List.mem_cons_self)
        rw [spaced_cons, hcons]
        exact Expression.stopsAt_cons.mpr (isNameChar_of_isBlank hblank)
    have hread := attribute?_source ht hstop (assignedValue?_spaced htexts)
    obtain ⟨c, cs, hsource, -⟩ := ht.exists_source
    rw [spaced_cons, attributesIn_blanks ht.gap]
    rw [hsource, List.cons_append] at hread ⊢
    rw [attributesIn]
    split
    · rename_i heq
      obtain ⟨rfl, rfl⟩ := Prod.mk.inj (Option.some.inj (hread.symm.trans heq))
      rw [ih htexts fun t' ht' => hapart t' (List.mem_of_mem_tail ht'), List.map_cons]
    · rename_i heq
      rw [hread] at heq
      cases heq

/-- A readable attribute does not end in a blank. -/
theorem getLast?_source {t : AttributeText} (h : t.Readable) :
    ∀ c ∈ t.source.getLast?, isBlank c = false := by
  obtain ⟨c, cs, hspelling, hchars⟩ := exists_spelling h.name
  intro d hd
  rw [AttributeText.source] at hd
  split at hd
  · rename_i value _
    have hconcat : t.entry.spelling.toList ++
        (t.before ++ '=' :: (t.after ++ t.quote :: (value.toList ++ [t.quote]))) =
          t.entry.spelling.toList ++ (t.before ++ '=' :: (t.after ++ t.quote :: value.toList)) ++
            [t.quote] := by
      simp
    rw [hconcat, List.getLast?_concat] at hd
    rw [← Option.some.inj hd]
    exact isBlank_of_isQuote h.quote
  · rw [hspelling] at hd
    exact isBlank_of_isNameChar (hchars d (List.mem_of_mem_getLast? hd))

/-- The attributes of a tag are trimmed behind their first blanks. -/
theorem isTrimmed_spaced {t : AttributeText} {texts : List AttributeText}
    (h : ∀ t' ∈ t :: texts, t'.Readable) : IsTrimmed (t.source ++ spaced texts) := by
  obtain ⟨ht, htexts⟩ := List.forall_mem_cons.mp h
  obtain ⟨c, cs, hsource, hc⟩ := ht.exists_source
  refine Text.isTrimmed_of_ends ?_ ?_
  · rw [hsource]
    intro d hd
    obtain rfl : c = d := by simpa using hd
    exact isBlank_of_isNameChar hc
  · clear hsource
    induction texts generalizing t with
    | nil =>
      rw [spaced, List.flatMap_nil, List.append_nil]
      exact getLast?_source ht
    | cons t' texts ih =>
      have ht' := htexts t' List.mem_cons_self
      obtain ⟨d, ds, hsource, -⟩ := ht'.exists_source
      have hne : t'.source ++ spaced texts ≠ [] := by
        rw [hsource]
        exact List.cons_ne_nil _ _
      rw [spaced_cons, List.getLast?_append_of_ne_nil _ (List.append_ne_nil_of_right_ne_nil _ hne),
        List.getLast?_append_of_ne_nil _ hne]
      exact ih htexts ht' fun other hother => htexts other (List.mem_cons_of_mem _ hother)

/-- **The attributes of a tag are read back**, whatever blanks stand around all of them. -/
theorem attributes_trim_spaced {texts : List AttributeText} (h : ∀ t ∈ texts, t.Readable)
    (hapart : ∀ t ∈ texts.tail, t.gap ≠ []) {front back : List Char} (hfront : Blanks front)
    (hback : Blanks back) :
    attributes (String.ofList (trim (front ++ (spaced texts ++ back)))) =
      collectBy (fun a => (a.bound, a.name)) (texts.map AttributeText.entry) := by
  have hread : attributesIn (trim (front ++ (spaced texts ++ back))) =
      texts.map AttributeText.entry := by
    cases texts with
    | nil =>
      have htrim : trim (front ++ ([] ++ back)) = [] := Text.trim_surrounded rfl hfront hback
      rw [spaced, List.flatMap_nil, htrim, attributesIn, List.map_nil]
    | cons t texts =>
      have hgap := (h t List.mem_cons_self).gap
      have hfront' : Blanks (front ++ t.gap) := List.forall_mem_append.mpr ⟨hfront, hgap⟩
      have htrim := Text.trim_surrounded (isTrimmed_spaced h) hfront' hback
      have hassoc : front ++ (spaced (t :: texts) ++ back) =
          front ++ t.gap ++ (t.source ++ spaced texts ++ back) := by
        simp [spaced_cons]
      rw [← attributesIn_spaced h hapart, hassoc, htrim, spaced_cons, attributesIn_blanks hgap]
  rw [attributes, String.toList_ofList, hread]

/-! ## The end of a tag -/

/-- The end of a tag is not in the text: it is looked for behind it. -/
def StandsInTag (text : List Char) : Prop :=
  ∀ rest, tagBody? (text ++ rest) = (tagBody? rest).map fun found => (text ++ found.1, found.2)

/-- The empty text may stand in a tag. -/
theorem standsInTag_nil : StandsInTag [] := fun _ => Option.map_id'.symm

/-- What stands in a tag may be followed by more of it. -/
theorem StandsInTag.append {text other : List Char} (h : StandsInTag text)
    (hother : StandsInTag other) : StandsInTag (text ++ other) := by
  intro rest
  rw [List.append_assoc, h, hother, Option.map_map]
  refine congrArg (fun f => (tagBody? rest).map f) (funext fun found => ?_)
  exact congrArg (·, found.2) (List.append_assoc text other found.1).symm

/-- A character that stands for itself in a tag. -/
def isTagText (c : Char) : Bool := !isQuote c && c != '<' && c != '>' && c != '/'

/-- Text without a bracket, a quote or a slash stands in a tag. -/
theorem standsInTag_text {text : List Char} (h : ∀ c ∈ text, isTagText c = true) :
    StandsInTag text := by
  intro rest
  induction text with
  | nil => exact standsInTag_nil rest
  | cons c text ih =>
    obtain ⟨hc, htext⟩ := List.forall_mem_cons.mp h
    simp only [isTagText, Bool.and_eq_true, Bool.not_eq_true', bne_iff_ne] at hc
    obtain ⟨⟨⟨hquote, hless⟩, hangle⟩, hslash⟩ := hc
    rw [List.cons_append, tagBody?_cons hless hangle (by simp [hquote]) (absurd · hslash),
      ih htext,
      Option.map_map]
    rfl

/-- The characters of a name are plain text of a tag. -/
theorem isTagText_of_isNameChar {c : Char} (h : isNameChar c = true) : isTagText c = true := by
  have hless := ne_of_isNameChar h (show isNameChar '<' = false by decide)
  have hangle := ne_of_isNameChar h (show isNameChar '>' = false by decide)
  have hslash := ne_of_isNameChar h (show isNameChar '/' = false by decide)
  simp [isTagText, isQuote_of_isNameChar h, hless, hangle, hslash]

/-- Blanks are plain text of a tag. -/
theorem isTagText_of_isBlank {c : Char} (h : isBlank c = true) : isTagText c = true := by
  have hne : ∀ {d : Char}, isBlank d = false → c ≠ d := by
    rintro d hd rfl
    rw [hd] at h
    cases h
  simp [isTagText, isQuote, hne (d := '\'') (by decide), hne (d := '"') (by decide),
    hne (d := '<') (by decide), hne (d := '>') (by decide), hne (d := '/') (by decide)]

/-- Blanks stand in a tag. -/
theorem standsInTag_blanks {blanks : List Char} (h : Blanks blanks) : StandsInTag blanks :=
  standsInTag_text fun c hc => isTagText_of_isBlank (h c hc)

/-- A quoted value stands in a tag, whatever brackets it holds. -/
theorem standsInTag_quoted {quote : Char} (hquote : isQuote quote = true) {value : List Char}
    (h : quote ∉ value) : StandsInTag (quote :: (value ++ [quote])) := by
  intro rest
  have hsplit : ∀ other : List Char,
      quote :: (value ++ [quote]) ++ other = quote :: (value ++ quote :: other) := by
    intro other
    simp
  rw [hsplit, tagBody?_quote hquote (firstMark_quote h)]
  simp only [hsplit]

/-- A readable attribute stands in a tag. -/
theorem AttributeText.Readable.standsInTag {t : AttributeText} (h : t.Readable) :
    StandsInTag t.source := by
  obtain ⟨c, cs, hspelling, hchars⟩ := exists_spelling h.name
  have hname : StandsInTag t.entry.spelling.toList := by
    rw [hspelling]
    exact standsInTag_text fun d hd => isTagText_of_isNameChar (hchars d hd)
  rw [source]
  split
  · rename_i value hvalue
    have hequals : StandsInTag ['='] :=
      standsInTag_text (List.forall_mem_singleton.mpr (by decide))
    have hquoted := standsInTag_quoted h.quote (h.value value hvalue)
    exact hname.append ((standsInTag_blanks h.before).append
      (hequals.append ((standsInTag_blanks h.after).append hquoted)))
  · exact hname

/-- A list of readable attributes stands in a tag. -/
theorem standsInTag_spaced {texts : List AttributeText} (h : ∀ t ∈ texts, t.Readable) :
    StandsInTag (spaced texts) := by
  induction texts with
  | nil => exact standsInTag_nil
  | cons t texts ih =>
    obtain ⟨ht, htexts⟩ := List.forall_mem_cons.mp h
    rw [spaced_cons]
    exact (standsInTag_blanks ht.gap).append (ht.standsInTag.append (ih htexts))

/-- A text without the end of a tag is the body of the tag that ends behind it. -/
theorem StandsInTag.isTagBody {text : List Char} (h : StandsInTag text) (closed : Bool) :
    IsTagBody text closed := by
  have hmark : tagBody? (tagMark closed) = some ([], closed, []) := by
    cases closed <;> simp [tagMark, tagBody?]
  rw [IsTagBody, h, hmark, Option.map_some, List.append_nil]

end ViewCompiler.Template
