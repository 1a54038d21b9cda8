import ViewCompiler.Template.Lexeme.Reader

/-!
# What the readers of lexemes leave

Every reader of a lexeme leaves a shorter end of its text (`shortens_saying?`). So cutting a
template ends, and what a reader took is the text before what it left.
-/

namespace ViewCompiler.Template

open Text

/-- A reader leaves a shorter end of its text. -/
def Shortens {α : Type} (read? : List Char → Option (α × List Char)) : Prop :=
  ∀ {cs : List Char} {a : α} {rest : List Char}, read? cs = some (a, rest) → Shorter rest cs

/-! ## Words and names -/

/-- What a folded word leaves is an end of the text. -/
theorem suffix_of_foldedWord? {word cs found rest : List Char}
    (h : foldedWord? word cs = some (found, rest)) : rest <:+ cs :=
  ⟨_, append_of_foldedWord? h⟩

/-- What a component's name leaves is an end of the text. -/
theorem suffix_of_tagName? {cs name rest : List Char} (h : tagName? cs = some (name, rest)) :
    rest <:+ cs := by
  cases cs with
  | nil => simp [tagName?] at h
  | cons c cs =>
    simp only [tagName?] at h
    split at h
    · obtain ⟨-, rfl⟩ := Prod.mk.inj (Option.some.inj h)
      exact (List.dropWhile_suffix _).trans (List.suffix_cons ..)
    · simp at h

/-- What the end of a tag leaves is an end of the text. -/
theorem suffix_of_tagEnd? {cs rest : List Char} (h : tagEnd? cs = some rest) : rest <:+ cs :=
  (suffix_of_mark? h).trans (List.dropWhile_suffix _)

/-- What the body of a tag leaves is an end of the text. -/
theorem suffix_of_tagBody? {cs source rest : List Char} {closed : Bool}
    (h : tagBody? cs = some (source, closed, rest)) : rest <:+ cs := by
  fun_induction tagBody? cs generalizing source closed rest with
  | case1 | case4 | case6 => simp at h
  | case2 =>
    obtain ⟨-, -, rfl⟩ := by simpa using h
    exact (List.suffix_cons ..).trans (List.suffix_cons ..)
  | case3 =>
    obtain ⟨-, -, rfl⟩ := by simpa using h
    exact List.suffix_cons ..
  | case5 c cs _ _ _ _ value mid hcut ih =>
    obtain ⟨⟨source', closed', rest'⟩, h', heq⟩ := Option.map_eq_some_iff.mp h
    obtain ⟨-, -, rfl⟩ := by simpa using heq
    exact (ih h').trans ((suffix_of_cut? hcut).trans (List.suffix_cons ..))
  | case7 c cs _ _ _ _ ih =>
    obtain ⟨⟨source', closed', rest'⟩, h', heq⟩ := Option.map_eq_some_iff.mp h
    obtain ⟨-, -, rfl⟩ := by simpa using heq
    exact (ih h').trans (List.suffix_cons ..)

/-! ## Interpolations, comments and host code -/

/-- A comment takes characters from the text. -/
theorem shortens_comment? : Shortens comment? := by
  intro cs a rest h
  obtain ⟨⟨inside, rest'⟩, h, heq⟩ := Option.bind_eq_some_iff.mp h
  obtain ⟨mid, h₁, h₂⟩ := Option.bind_eq_some_iff.mp h
  obtain ⟨-, rfl⟩ := Prod.mk.inj (Option.some.inj heq)
  exact (shorter_of_mark? h₁ (by decide)).of_suffix (suffix_of_cut? h₂)

/-- An echo in three braces takes characters from the text. -/
theorem shortens_rawEcho? : Shortens rawEcho? := by
  intro cs a rest h
  obtain ⟨⟨inside, rest'⟩, h, heq⟩ := Option.bind_eq_some_iff.mp h
  obtain ⟨mid, h₁, h₂⟩ := Option.bind_eq_some_iff.mp h
  obtain ⟨-, rfl⟩ := Prod.mk.inj (Option.some.inj heq)
  exact (shorter_of_mark? h₁ (by decide)).of_suffix (suffix_of_cut? h₂)

/-- An echo in two braces takes characters from the text. -/
theorem shortens_escapedEcho? : Shortens escapedEcho? := by
  intro cs a rest h
  obtain ⟨⟨inside, rest'⟩, h, heq⟩ := Option.bind_eq_some_iff.mp h
  obtain ⟨mid, h₁, h₂⟩ := Option.bind_eq_some_iff.mp h
  obtain ⟨-, rfl⟩ := Prod.mk.inj (Option.some.inj heq)
  exact (shorter_of_mark? h₁ (by decide)).of_suffix (suffix_of_cut? h₂)

/-- The opening of host code takes characters from the text. -/
theorem shortens_hostOpening? : Shortens hostOpening? := by
  intro cs a rest h
  unfold hostOpening? at h
  split at h
  · split at h
    · obtain ⟨-, rfl⟩ := Prod.mk.inj (Option.some.inj h)
      exact shorter_of_mark? ‹_› (by decide)
    · simp at h
  · simp at h
  · obtain ⟨rest', h', heq⟩ := Option.map_eq_some_iff.mp h
    obtain ⟨-, rfl⟩ := Prod.mk.inj heq
    exact shorter_of_mark? h' (by decide)

/-- Host code takes characters from the text. -/
theorem shortens_host? : Shortens host? := by
  intro cs a rest h
  obtain ⟨⟨printed, mid⟩, h₁, h⟩ := Option.bind_eq_some_iff.mp h
  obtain ⟨⟨code, rest'⟩, h₂, heq⟩ := Option.bind_eq_some_iff.mp h
  obtain ⟨-, rfl⟩ := Prod.mk.inj (Option.some.inj heq)
  exact (shortens_hostOpening? h₁).of_suffix (suffix_of_cut? h₂)

/-! ## Directives -/

/-- What is left behind a keyword with arguments is an end of the text. -/
theorem suffix_of_argumentKeyword? {cs keyword rest : List Char}
    (h : argumentKeyword? cs = some (keyword, rest)) : rest <:+ cs := by
  unfold argumentKeyword? at h
  rcases Option.or_eq_some_iff.mp h with h | ⟨-, h⟩
  · obtain ⟨word, -, h⟩ := List.exists_of_findSome?_eq_some h
    obtain ⟨rest', h', heq⟩ := Option.map_eq_some_iff.mp h
    obtain ⟨-, rfl⟩ := Prod.mk.inj heq
    exact suffix_of_mark? h'
  · obtain ⟨⟨found, rest'⟩, h', heq⟩ := Option.map_eq_some_iff.mp h
    obtain ⟨-, rfl⟩ := Prod.mk.inj heq
    exact suffix_of_foldedWord? h'

/-- A directive with arguments takes characters from the text. -/
theorem shortens_argumentDirective? : Shortens argumentDirective? := by
  intro cs a rest h
  obtain ⟨⟨keyword, mid⟩, h₁, h⟩ := Option.bind_eq_some_iff.mp h
  obtain ⟨start, hmark, hkeyword⟩ := Option.bind_eq_some_iff.mp h₁
  obtain ⟨inside, h₂, h⟩ := Option.bind_eq_some_iff.mp h
  have hinside : Shorter inside cs :=
    (shorter_of_mark? hmark (by decide)).of_suffix <|
      (suffix_of_mark? h₂).trans <| (List.dropWhile_suffix _).trans <|
        suffix_of_argumentKeyword? hkeyword
  split at h
  · obtain ⟨-, rfl⟩ := Prod.mk.inj (Option.some.inj h)
    exact hinside
  · split at h
    · obtain ⟨-, rfl⟩ := Prod.mk.inj (Option.some.inj h)
      exact hinside.of_suffix (List.drop_suffix ..)
    · obtain ⟨-, rfl⟩ := Prod.mk.inj (Option.some.inj h)
      exact hinside.of_suffix (List.drop_suffix ..)

/-- A keyword without arguments takes characters from the text. -/
theorem shortens_plainKeyword? (word : String) : Shortens (plainKeyword? word) := by
  intro cs a rest h
  unfold plainKeyword? at h
  split at h
  · rename_i found rest' h'
    obtain ⟨mid, h₁, h₂⟩ := Option.bind_eq_some_iff.mp h'
    split at h
    · obtain ⟨-, rfl⟩ := Prod.mk.inj (Option.some.inj h)
      exact (shorter_of_mark? h₁ (by decide)).of_suffix (suffix_of_foldedWord? h₂)
    · simp at h
  · simp at h

/-- The alternative of a conditional takes characters from the text. -/
theorem shortens_alternative? : Shortens alternative? := by
  intro cs a rest h
  obtain ⟨⟨found, rest'⟩, h', heq⟩ := Option.map_eq_some_iff.mp h
  obtain ⟨-, rfl⟩ := Prod.mk.inj heq
  exact shortens_plainKeyword? _ h'

/-- A closing directive takes characters from the text. -/
theorem shortens_closingDirective? : Shortens closingDirective? := by
  intro cs a rest h
  obtain ⟨⟨found, rest'⟩, h', heq⟩ := Option.map_eq_some_iff.mp h
  obtain ⟨-, rfl⟩ := Prod.mk.inj heq
  obtain ⟨closer, -, h⟩ := List.exists_of_findSome?_eq_some h'
  exact shortens_plainKeyword? _ h

/-! ## Tags -/

/-- The opening tag of a slot takes characters from the text. -/
theorem shortens_slotOpening? : Shortens slotOpening? := by
  intro cs a rest h
  obtain ⟨mid, h₁, h⟩ := Option.bind_eq_some_iff.mp h
  split at h
  · simp at h
  · obtain ⟨rest', h₂, heq⟩ := Option.bind_eq_some_iff.mp h
    obtain ⟨-, rfl⟩ := Prod.mk.inj (Option.some.inj heq)
    exact (shorter_of_mark? h₁ (by decide)).of_suffix <|
      (suffix_of_tagEnd? h₂).trans (List.dropWhile_suffix _)

/-- The closing tag of a slot takes characters from the text. -/
theorem shortens_slotClosing? : Shortens slotClosing? := by
  intro cs a rest h
  obtain ⟨rest', h, heq⟩ := Option.bind_eq_some_iff.mp h
  obtain ⟨mid, h₁, h₂⟩ := Option.bind_eq_some_iff.mp h
  obtain ⟨-, rfl⟩ := Prod.mk.inj (Option.some.inj heq)
  exact (shorter_of_mark? h₁ (by decide)).of_suffix (suffix_of_tagEnd? h₂)

/-- What is left behind the name of an opening tag is an end of the text. -/
theorem suffix_of_openingName? {cs name rest : List Char}
    (h : openingName? cs = some (name, rest)) : rest <:+ cs := by
  unfold openingName? at h
  split at h
  · split at h
    · obtain ⟨-, rfl⟩ := Prod.mk.inj (Option.some.inj h)
      exact suffix_of_tagName? ‹_›
    · simp at h
  · simp at h

/-- An opening tag takes characters from the text. -/
theorem shortens_openingTag? : Shortens openingTag? := by
  intro cs a rest h
  obtain ⟨⟨name, mid⟩, h₁, h⟩ := Option.bind_eq_some_iff.mp h
  obtain ⟨start, hmark, hname⟩ := Option.bind_eq_some_iff.mp h₁
  obtain ⟨⟨source, closed, rest'⟩, h₂, h⟩ := Option.bind_eq_some_iff.mp h
  have hrest : Shorter rest' cs :=
    (shorter_of_mark? hmark (by decide)).of_suffix <|
      (suffix_of_tagBody? h₂).trans (suffix_of_openingName? hname)
  simp only at h
  split at h
  · obtain ⟨-, rfl⟩ := Prod.mk.inj (Option.some.inj h)
    exact hrest
  · split at h
    · obtain ⟨-, rfl⟩ := Prod.mk.inj (Option.some.inj h)
      exact hrest
    · obtain ⟨-, rfl⟩ := Prod.mk.inj (Option.some.inj h)
      exact hrest

/-- A closing tag takes characters from the text. -/
theorem shortens_closingTag? : Shortens closingTag? := by
  intro cs a rest h
  obtain ⟨⟨tag, mid⟩, h₁, h⟩ := Option.bind_eq_some_iff.mp h
  obtain ⟨start, hmark, htag⟩ := Option.bind_eq_some_iff.mp h₁
  obtain ⟨rest', h₂, heq⟩ := Option.bind_eq_some_iff.mp h
  obtain ⟨-, rfl⟩ := Prod.mk.inj (Option.some.inj heq)
  exact (shorter_of_mark? hmark (by decide)).of_suffix <|
    (suffix_of_tagEnd? h₂).trans (suffix_of_tagName? htag)

/-! ## All kinds -/

/-- Trying one reader and then another leaves a shorter end if both do. -/
theorem Shortens.or {α : Type} {f g : List Char → Option (α × List Char)} (hf : Shortens f)
    (hg : Shortens g) : Shortens fun cs => (f cs).or (g cs) := by
  intro cs a rest h
  rcases Option.or_eq_some_iff.mp h with h | ⟨-, h⟩
  · exact hf h
  · exact hg h

/-- **Reading a lexeme leaves a shorter end of the text.** -/
theorem shortens_saying? : Shortens saying? :=
  shortens_comment?.or <| shortens_rawEcho?.or <| shortens_escapedEcho?.or <|
    shortens_host?.or <| shortens_argumentDirective?.or <| shortens_alternative?.or <|
      shortens_closingDirective?.or <| shortens_slotOpening?.or <|
        shortens_slotClosing?.or <| shortens_openingTag?.or shortens_closingTag?

end ViewCompiler.Template
