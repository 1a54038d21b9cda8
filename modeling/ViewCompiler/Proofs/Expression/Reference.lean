import ViewCompiler.Proofs.Expression.Cutting

/-!
# The cut of a text, by itself

What it means that a text is cut into literals, phrases and other characters, told without a
reader: a literal is a quote, escapes and other characters, and the same quote; at each place from
left to right a literal is taken if one starts there, else a phrase if one does, else a character
(`CutFrom`). A text has one such cut, the pieces (`cutFrom_iff`), for every kind of phrases whose
reader is told in the same way.
-/

namespace ViewCompiler.Expression

/-! ## Literals -/

/-- What stands between the quotes of a literal: a backslash with a character behind it, or a
character that is neither a backslash nor the quote, any number of times. -/
inductive Inside (quote : Char) : List Char → Prop where
  | nil : Inside quote []
  | escape (c : Char) {cs : List Char} (h : Inside quote cs) : Inside quote ('\\' :: c :: cs)
  | plain {c : Char} {cs : List Char} (hback : c ≠ '\\') (hquote : c ≠ quote)
    (h : Inside quote cs) : Inside quote (c :: cs)

/-- The literal is one that is closed by its first quote that is not escaped. -/
structure Literal.IsTerminated (l : Literal) : Prop where
  isQuote : isQuote l.quote = true
  inside : Inside l.quote l.inside

/-- What stands in front of a closing quote is the inside of a literal. -/
theorem inside_of_closeQuote? {quote : Char} {cs inside rest : List Char}
    (h : closeQuote? quote cs = some (inside, rest)) : Inside quote inside := by
  fun_induction closeQuote? quote cs generalizing inside rest with
  | case1 | case2 => cases h
  | case3 c cs ih =>
    obtain ⟨found, h', heq⟩ := Option.map_eq_some_iff.mp h
    obtain ⟨rfl, rfl⟩ := Prod.mk.inj heq
    exact .escape c (ih h')
  | case4 c cs _ _ _ =>
    obtain ⟨rfl, rfl⟩ := Prod.mk.inj (Option.some.inj h)
    exact .nil
  | case5 c cs hnil hcons hquote ih =>
    obtain ⟨found, h', heq⟩ := Option.map_eq_some_iff.mp h
    obtain ⟨rfl, rfl⟩ := Prod.mk.inj heq
    exact .plain (ne_backslash hnil hcons) (fun heq => hquote (beq_iff_eq.mpr heq)) (ih h')

/-- The inside of a literal ends at the first closing quote behind it. -/
theorem Inside.closeQuote?_append {quote : Char} {inside : List Char} (h : Inside quote inside)
    (hback : quote ≠ '\\') (rest : List Char) :
    closeQuote? quote (inside ++ quote :: rest) = some (inside, rest) := by
  induction h with
  | nil => rw [List.nil_append, closeQuote?_cons hback, if_pos (beq_self_eq_true quote)]
  | escape c _ ih =>
    rw [List.cons_append, List.cons_append, closeQuote?, ih]
    rfl
  | plain hback' hquote _ ih =>
    rw [List.cons_append, closeQuote?_cons hback', if_neg (fun h => hquote (beq_iff_eq.mp h)), ih]
    rfl

/-- **A literal is read from a text exactly if the text starts with it** and it is terminated. -/
theorem literal?_eq_some_iff {cs rest : List Char} {l : Literal} :
    literal? cs = some (l, rest) ↔ l.IsTerminated ∧ l.text ++ rest = cs := by
  constructor
  · intro h
    refine ⟨?_, append_of_literal? h⟩
    cases cs with
    | nil => cases h
    | cons c cs =>
      simp only [literal?] at h
      split at h
      · rename_i hquote
        obtain ⟨found, h', heq⟩ := Option.map_eq_some_iff.mp h
        obtain ⟨rfl, rfl⟩ := Prod.mk.inj heq
        exact ⟨hquote, inside_of_closeQuote? h'⟩
      · cases h
  · rintro ⟨hl, rfl⟩
    have hback : l.quote ≠ '\\' := by
      intro heq
      have hquote := hl.isQuote
      rw [heq] at hquote
      exact absurd hquote (by decide)
    have hclose := hl.inside.closeQuote?_append hback rest
    simp only [Literal.text, List.cons_append, List.append_assoc, List.nil_append, literal?,
      if_pos hl.isQuote, hclose]
    rfl

/-- No literal starts a text if none is read from it. -/
theorem literal?_eq_none_iff_forall {cs : List Char} :
    literal? cs = none ↔ ∀ (l : Literal) rest, l.IsTerminated → l.text ++ rest ≠ cs := by
  constructor
  · intro h l rest hl heq
    rw [literal?_eq_some_iff.mpr ⟨hl, heq⟩] at h
    cases h
  · intro h
    cases hread : literal? cs with
    | none => rfl
    | some found =>
      obtain ⟨hl, heq⟩ := literal?_eq_some_iff.mp hread
      exact absurd heq (h found.1 found.2 hl)

/-! ## Cuts -/

variable {α : Type}

/-- The text starts with no literal. -/
def NoLiteral (cs : List Char) : Prop := ∀ (l : Literal) rest, l.IsTerminated → l.text ++ rest ≠ cs

/-- A text behind `colons` colons is cut into the pieces from left to right: a literal is taken if
one starts here, else a phrase if one does, else one character. `Starts colons a rest` says that
the phrase `a` is one behind these colons and in front of `rest`. -/
inductive CutFrom (write : α → List Char) (Starts : Nat → α → List Char → Prop) :
    Nat → List Char → List (Piece α) → Prop where
  | nil {colons : Nat} : CutFrom write Starts colons [] []
  | literal {colons : Nat} {l : Literal} {rest : List Char} {pieces : List (Piece α)}
    (hl : l.IsTerminated) (hrest : CutFrom write Starts 0 rest pieces) :
    CutFrom write Starts colons (l.text ++ rest) (.literal l :: pieces)
  | phrase {colons : Nat} {a : α} {rest : List Char} {pieces : List (Piece α)}
    (hliteral : NoLiteral (write a ++ rest)) (ha : Starts colons a rest)
    (hrest : CutFrom write Starts 0 rest pieces) :
    CutFrom write Starts colons (write a ++ rest) (.phrase a :: pieces)
  | char {colons : Nat} {c : Char} {rest : List Char} {pieces : List (Piece α)}
    (hliteral : NoLiteral (c :: rest))
    (hphrase : ∀ a left, Starts colons a left → write a ++ left ≠ c :: rest)
    (hrest : CutFrom write Starts (if c = ':' then colons + 1 else 0) rest pieces) :
    CutFrom write Starts colons (c :: rest) (.char c :: pieces)

section Cuts

variable {kind : Phrase α} {Starts : Nat → α → List Char → Prop}

/-- The pieces of a text are a cut of it. -/
theorem cutFrom_piecesFrom
    (hread : ∀ colons cs a rest,
      kind.read? colons cs = some (a, rest) ↔ Starts colons a rest ∧ kind.write a ++ rest = cs)
    (colons : Nat) (cs : List Char) :
    CutFrom kind.write Starts colons cs (kind.piecesFrom colons cs) := by
  fun_induction Phrase.piecesFrom kind colons cs with
  | case1 colons cs h =>
    rw [Phrase.eq_nil_of_piece?_eq_none h]
    exact .nil
  | case2 colons cs piece rest h ih =>
    cases piece with
    | literal l =>
      obtain ⟨hterminated, heq⟩ := literal?_eq_some_iff.mp (literal?_of_piece? h)
      rw [← heq]
      exact .literal hterminated ih
    | phrase a =>
      obtain ⟨hliteral, hr⟩ := piece?_eq_some_iff.mp h
      obtain ⟨ha, heq⟩ := (hread ..).mp hr
      rw [← heq] at hliteral ⊢
      exact .phrase (literal?_eq_none_iff_forall.mp hliteral) ha ih
    | char c =>
      obtain ⟨rfl, hliteral, hr⟩ := of_piece?_char h
      refine .char (literal?_eq_none_iff_forall.mp hliteral) (fun a left ha heq => ?_)
        (colons_char_eq colons c ▸ ih)
      rw [(hread ..).mpr ⟨ha, heq⟩] at hr
      cases hr

variable (kind) in
/-- **A text has one cut**: its pieces. -/
theorem cutFrom_iff
    (hread : ∀ colons cs a rest,
      kind.read? colons cs = some (a, rest) ↔ Starts colons a rest ∧ kind.write a ++ rest = cs)
    {colons : Nat} {cs : List Char} {pieces : List (Piece α)} :
    CutFrom kind.write Starts colons cs pieces ↔ kind.piecesFrom colons cs = pieces := by
  refine ⟨fun h => ?_, fun h => h ▸ cutFrom_piecesFrom hread colons cs⟩
  induction h with
  | nil => rw [piecesFrom_eq, Phrase.piece?]
  | @literal colons l rest pieces hl hrest ih =>
    have hread? : literal? (l.text ++ rest) = some (l, rest) :=
      literal?_eq_some_iff.mpr ⟨hl, rfl⟩
    rw [piecesFrom_of_piece? (piece?_literal hread?)]
    exact congrArg _ ih
  | @phrase colons a rest pieces hliteral ha hrest ih =>
    rw [piecesFrom_of_piece? (piece?_phrase (literal?_eq_none_iff_forall.mpr hliteral)
      ((hread ..).mpr ⟨ha, rfl⟩))]
    exact congrArg _ ih
  | @char colons c rest pieces hliteral hphrase hrest ih =>
    have hr : kind.read? colons (c :: rest) = none := by
      cases hr : kind.read? colons (c :: rest) with
      | none => rfl
      | some found =>
        obtain ⟨ha, heq⟩ := (hread ..).mp hr
        exact absurd heq (hphrase _ _ ha)
    rw [piecesFrom_of_piece? (piece?_char (literal?_eq_none_iff_forall.mpr hliteral) hr),
      colons_char_eq, ih]

end Cuts

end ViewCompiler.Expression
