import ViewCompiler.Proofs.Expression.Calls

/-!
# How an expression is cut into pieces

What a text starts with is told once for every kind of phrases (`piece?_eq_some_iff`), and text in
which nothing starts is cut into its characters (`piecesFrom_append_plain`).

`IsCut pieces` says that pieces are what the text they spell is cut into. A cut is checked from
left to right (`isCut_cons`): a closed literal and an accessor call are read whatever stands behind
them, and a character is a piece of its own if neither starts with it. So the pieces behind a place
do not depend on the pieces before it, and the other way round only single characters can change.
-/

namespace ViewCompiler.Expression

/-- The pieces of an expression that is cut at its accessor calls. -/
abbrev CallPiece := Piece DottedPath

/-- Pieces as written. -/
def spelled (pieces : List CallPiece) : List Char := pieces.flatMap (Piece.text DottedPath.call)

/-- No pieces spell nothing. -/
@[simp] theorem spelled_nil : spelled [] = [] := rfl

/-- Pieces spell the text of the first one and what the others spell. -/
@[simp] theorem spelled_cons (p : CallPiece) (pieces : List CallPiece) :
    spelled (p :: pieces) = p.text DottedPath.call ++ spelled pieces := rfl

/-- Pieces in two lists spell one text after the other. -/
@[simp] theorem spelled_append (before after : List CallPiece) :
    spelled (before ++ after) = spelled before ++ spelled after := List.flatMap_append

/-- Characters as pieces spell themselves. -/
@[simp] theorem spelled_map_char (cs : List Char) : spelled (cs.map .char) = cs := by
  induction cs with
  | nil => rfl
  | cons c cs ih => simp [ih, Piece.text]

/-- Only no pieces spell nothing. -/
theorem spelled_eq_nil_iff {pieces : List CallPiece} : spelled pieces = [] ↔ pieces = [] := by
  cases pieces with
  | nil => simp
  | cons p pieces =>
    have hne : p.text DottedPath.call ≠ [] := accessor.text_ne_nil p
    simp [hne]

/-! ## Literals -/

/-- A character that escapes nothing closes the literal or belongs to its inside. -/
theorem closeQuote?_cons {quote c : Char} (hback : c ≠ '\\') (cs : List Char) :
    closeQuote? quote (c :: cs) =
      if c == quote then some ([], cs)
      else (closeQuote? quote cs).map fun found => (c :: found.1, found.2) := by
  rw [closeQuote?]
  · exact fun h => absurd h hback
  · exact fun _ _ h => absurd h hback

/-- A character that starts no escape is no backslash. -/
theorem ne_backslash {c : Char} {cs : List Char} (hnil : c = '\\' → cs = [] → False)
    (hcons : ∀ d ds, c = '\\' → cs = d :: ds → False) : c ≠ '\\' := by
  rintro rfl
  cases cs with
  | nil => exact hnil rfl rfl
  | cons d ds => exact hcons d ds rfl rfl

/-- The inside of a literal is read up to its closing quote, whatever stands behind it. -/
theorem closeQuote?_append {quote : Char} {cs inside rest : List Char}
    (h : closeQuote? quote cs = some (inside, rest)) (other : List Char) :
    closeQuote? quote (inside ++ quote :: other) = some (inside, other) := by
  fun_induction closeQuote? quote cs generalizing inside rest with
  | case1 | case2 => simp at h
  | case3 c cs ih =>
    obtain ⟨found, h', heq⟩ := Option.map_eq_some_iff.mp h
    obtain ⟨rfl, rfl⟩ := Prod.mk.inj heq
    simp [closeQuote?, ih h']
  | case4 c cs hnil hcons hc =>
    obtain ⟨rfl, rfl⟩ := Prod.mk.inj (Option.some.inj h)
    obtain rfl := beq_iff_eq.mp hc
    rw [List.nil_append, closeQuote?_cons (ne_backslash hnil hcons), if_pos hc]
  | case5 c cs hnil hcons hc ih =>
    obtain ⟨found, h', heq⟩ := Option.map_eq_some_iff.mp h
    obtain ⟨rfl, rfl⟩ := Prod.mk.inj heq
    rw [List.cons_append, closeQuote?_cons (ne_backslash hnil hcons), if_neg hc, ih h']
    rfl

/-- A closed literal is read whatever stands behind it. -/
theorem literal?_append {l : Literal} {rest : List Char}
    (h : literal? (l.text ++ rest) = some (l, rest)) (other : List Char) :
    literal? (l.text ++ other) = some (l, other) := by
  simp only [Literal.text, List.cons_append, List.append_assoc, literal?] at h ⊢
  split at h
  · rename_i hquote
    obtain ⟨⟨inside, rest'⟩, h', heq⟩ := Option.map_eq_some_iff.mp h
    obtain ⟨hl, rfl⟩ := Prod.mk.inj heq
    obtain rfl : inside = l.inside := congrArg Literal.inside hl
    rw [if_pos hquote, List.nil_append, closeQuote?_append h' other]
    rfl
  · simp at h

/-- A literal starts with a quote. -/
theorem literal?_eq_none {c : Char} (h : isQuote c = false) (cs : List Char) :
    literal? (c :: cs) = none := by simp [literal?, h]

/-! ## The first piece -/

section FirstPiece

variable {α : Type} {kind : Phrase α} {colons : Nat} {c : Char} {cs rest : List Char}

/-- **What a text starts with**: a literal if one is read, a phrase if one is read and no literal,
and a character if neither is read. -/
theorem piece?_eq_some_iff {p : Piece α} :
    kind.piece? colons cs = some (p, rest) ↔
      match p with
      | .literal l => literal? cs = some (l, rest)
      | .phrase a => literal? cs = none ∧ kind.read? colons cs = some (a, rest)
      | .char c => cs = c :: rest ∧ literal? cs = none ∧ kind.read? colons cs = none := by
  cases cs with
  | nil =>
    refine iff_of_false (by simp [Phrase.piece?]) ?_
    cases p with
    | literal l => exact fun h => by cases h
    | phrase a =>
      rintro ⟨-, h⟩
      exact kind.write_ne_nil a (List.append_eq_nil_iff.mp (kind.append_of_read? h)).1
    | char c => exact fun h => by cases h.1
  | cons c cs =>
    rw [Phrase.piece?]
    cases literal? (c :: cs) with
    | some found => cases p <;> simp [Prod.ext_iff]
    | none => cases kind.read? colons (c :: cs) <;> cases p <;> simp [Prod.ext_iff]

/-- A piece that is a literal is read as one. -/
theorem literal?_of_piece? {l : Literal} (h : kind.piece? colons cs = some (.literal l, rest)) :
    literal? cs = some (l, rest) := piece?_eq_some_iff.mp h

/-- A piece that is a phrase is read as one. -/
theorem read?_of_piece? {a : α} (h : kind.piece? colons cs = some (.phrase a, rest)) :
    kind.read? colons cs = some (a, rest) := (piece?_eq_some_iff.mp h).2

/-- A piece that is a character stands where neither a literal nor a phrase is read. -/
theorem of_piece?_char (h : kind.piece? colons cs = some (.char c, rest)) :
    cs = c :: rest ∧ literal? cs = none ∧ kind.read? colons cs = none := piece?_eq_some_iff.mp h

/-- Where a literal is read, it is the next piece. -/
theorem piece?_literal {l : Literal} (h : literal? cs = some (l, rest)) :
    kind.piece? colons cs = some (.literal l, rest) := piece?_eq_some_iff.mpr h

/-- Where a phrase is read and no literal, it is the next piece. -/
theorem piece?_phrase {a : α} (hliteral : literal? cs = none)
    (h : kind.read? colons cs = some (a, rest)) :
    kind.piece? colons cs = some (.phrase a, rest) := piece?_eq_some_iff.mpr ⟨hliteral, h⟩

/-- Where nothing is read, the next piece is a character. -/
theorem piece?_char (hliteral : literal? (c :: cs) = none)
    (h : kind.read? colons (c :: cs) = none) :
    kind.piece? colons (c :: cs) = some (.char c, cs) := piece?_eq_some_iff.mpr ⟨rfl, hliteral, h⟩

end FirstPiece

/-- Only a colon adds to the colons before it. -/
theorem colons_char_eq {α : Type} (before : Nat) (c : Char) :
    (Piece.char c : Piece α).colons before = if c = ':' then before + 1 else 0 := by
  unfold Piece.colons
  split <;> simp_all

/-- No colons stand directly before a text behind another character than a colon. -/
theorem colons_eq_zero {α : Type} {c : Char} (h : c ≠ ':') (before : Nat) :
    (Piece.char c : Piece α).colons before = 0 := by
  rw [colons_char_eq, if_neg h]

/-- The kind of the phrases does not matter to the colons that a character leaves. -/
theorem colons_char {α β : Type} (c : Char) (before : Nat) :
    (Piece.char c : Piece α).colons before = (Piece.char c : Piece β).colons before := by
  rw [colons_char_eq, colons_char_eq]

/-! ## Pieces one by one -/

/-- A piece is what is cut off a text that it starts. -/
def CutsOff (p : CallPiece) (rest : List Char) : Prop :=
  accessor.piece? 0 (p.text DottedPath.call ++ rest) = some (p, rest)

/-- What is cut off as a literal is read as one. -/
theorem literal?_of_cutsOff {l : Literal} {rest : List Char} (h : CutsOff (.literal l) rest) :
    literal? (l.text ++ rest) = some (l, rest) := literal?_of_piece? h

/-- A closed literal is cut off whatever stands behind it. -/
theorem cutsOff_literal {l : Literal} {rest : List Char} (h : CutsOff (.literal l) rest)
    (other : List Char) : CutsOff (.literal l) other :=
  piece?_literal (literal?_append (literal?_of_cutsOff h) other)

/-- A call is no literal. -/
theorem literal?_call (a : DottedPath) (rest : List Char) : literal? (a.call ++ rest) = none := by
  rw [call_eq]
  exact literal?_eq_none (by decide) _

/-- A call is cut off whatever stands behind it, if it can be read. -/
theorem cutsOff_phrase {a : DottedPath} {rest : List Char} :
    CutsOff (.phrase a) rest ↔ a.Readable := by
  constructor
  · exact fun h => readable_of_accessor? (read?_of_piece? h)
  · exact fun h => piece?_phrase (literal?_call a rest) (accessor?_append h rest)

/-- A character is cut off if neither a literal nor a call starts with it. -/
theorem cutsOff_char {c : Char} {rest : List Char} :
    CutsOff (.char c) rest ↔ literal? (c :: rest) = none ∧ accessor? (c :: rest) = none :=
  ⟨fun h => (of_piece?_char h).2, fun h => piece?_char h.1 h.2⟩

/-! ## Cuts -/

/-- The pieces of a text are its first piece, if it has one, and the pieces of the rest. -/
theorem piecesFrom_eq {α : Type} (kind : Phrase α) (colons : Nat) (cs : List Char) :
    kind.piecesFrom colons cs =
      match kind.piece? colons cs with
      | none => []
      | some (piece, rest) => piece :: kind.piecesFrom (piece.colons colons) rest := by
  rw [Phrase.piecesFrom]
  split <;> simp_all

/-- The pieces of a text are the piece cut off first and the pieces of the rest. -/
theorem piecesFrom_of_piece? {α : Type} {kind : Phrase α} {colons : Nat} {cs rest : List Char}
    {p : Piece α} (h : kind.piece? colons cs = some (p, rest)) :
    kind.piecesFrom colons cs = p :: kind.piecesFrom (p.colons colons) rest := by
  rw [piecesFrom_eq, h]

/-- **Text without quotes and colons in which no phrase starts is cut into its characters.** -/
theorem piecesFrom_append_plain {α : Type} {kind : Phrase α} {run : List Char}
    (hrun : ∀ c ∈ run, isQuote c = false ∧ c ≠ ':' ∧
      ∀ colons cs, kind.read? colons (c :: cs) = none)
    {colons : Nat} (hcolons : run = [] → colons = 0) (cs : List Char) :
    kind.piecesFrom colons (run ++ cs) = run.map .char ++ kind.piecesFrom 0 cs := by
  induction run generalizing colons with
  | nil => rw [hcolons rfl, List.nil_append, List.map_nil, List.nil_append]
  | cons c run ih =>
    obtain ⟨⟨hquote, hcolon, hread⟩, hrun⟩ := List.forall_mem_cons.mp hrun
    rw [List.cons_append,
      piecesFrom_of_piece? (piece?_char (literal?_eq_none hquote _) (hread ..)),
      colons_eq_zero hcolon, ih hrun (fun _ => rfl)]
    rfl

/-- How many colons stand before a text does not matter to its calls. -/
theorem piecesFrom_accessor (colons : Nat) (cs : List Char) :
    accessor.piecesFrom colons cs = accessor.pieces cs := by
  suffices h : ∀ other, accessor.piecesFrom colons cs = accessor.piecesFrom other cs from h 0
  have hpiece : ∀ colons other cs, accessor.piece? colons cs = accessor.piece? other cs := by
    intro colons other cs
    cases cs <;> rfl
  fun_induction Phrase.piecesFrom accessor colons cs with
  | case1 colons cs h =>
    intro other
    rw [piecesFrom_eq, hpiece other colons, h]
  | case2 colons cs piece rest h ih =>
    intro other
    rw [piecesFrom_of_piece? ((hpiece other colons cs).trans h)]
    exact congrArg _ (ih _)

/-- The pieces are what the text they spell is cut into. -/
def IsCut (pieces : List CallPiece) : Prop := accessor.pieces (spelled pieces) = pieces

/-- The pieces of a text spell it. -/
@[simp] theorem spelled_pieces (cs : List Char) : spelled (accessor.pieces cs) = cs :=
  accessor.text_pieces cs

/-- The pieces of a text are a cut. -/
theorem isCut_pieces (cs : List Char) : IsCut (accessor.pieces cs) :=
  congrArg accessor.pieces (spelled_pieces cs)

/-- A text is spelled by what stands before a call, the call, and what stands behind it. -/
theorem eq_spelled_of_pieces {cs : List Char} {before after : List CallPiece} {a : DottedPath}
    (h : accessor.pieces cs = before ++ .phrase a :: after) :
    cs = spelled before ++ (a.call ++ spelled after) := by
  rw [← spelled_pieces cs, h, spelled_append]
  rfl

/-- The pieces of a text after the first one. -/
theorem pieces_eq_cons {cs rest : List Char} {p : CallPiece}
    (h : accessor.piece? 0 cs = some (p, rest)) :
    accessor.pieces cs = p :: accessor.pieces rest := by
  rw [Phrase.pieces, piecesFrom_of_piece? h, piecesFrom_accessor]

/-- Nothing is cut into no pieces. -/
theorem isCut_nil : IsCut [] := by
  unfold IsCut Phrase.pieces
  rw [Phrase.piecesFrom]
  simp [Phrase.piece?]

/-- A cut is its first piece and a cut of the rest. -/
theorem isCut_cons {p : CallPiece} {pieces : List CallPiece} :
    IsCut (p :: pieces) ↔ CutsOff p (spelled pieces) ∧ IsCut pieces := by
  constructor
  · intro h
    cases hp : accessor.piece? 0 (spelled (p :: pieces)) with
    | none =>
      have hnil := Phrase.eq_nil_of_piece?_eq_none hp
      rw [spelled_eq_nil_iff] at hnil
      simp at hnil
    | some found =>
      obtain ⟨q, rest⟩ := found
      have hcut := h.symm.trans (pieces_eq_cons hp)
      obtain ⟨rfl, hrest⟩ := List.cons.inj hcut
      have htext := Phrase.append_of_piece? hp
      obtain rfl := List.append_cancel_left htext
      exact ⟨hp, hrest.symm⟩
  · rintro ⟨hp, hcut⟩
    exact (pieces_eq_cons hp).trans (congrArg _ hcut)

/-- The end of a cut is a cut. -/
theorem IsCut.of_append {before after : List CallPiece} (h : IsCut (before ++ after)) :
    IsCut after := by
  induction before with
  | nil => exact h
  | cons p before ih => exact ih (isCut_cons.mp h).2

/-- A cut of a text whose calls are among its pieces holds only calls that can be read. -/
theorem IsCut.readable {before after : List CallPiece} {a : DottedPath}
    (h : IsCut (before ++ .phrase a :: after)) : a.Readable :=
  cutsOff_phrase.mp (isCut_cons.mp h.of_append).1

/-- The calls of a cut can be read. -/
theorem IsCut.readable_of_mem {pieces : List CallPiece} {a : DottedPath} (h : IsCut pieces)
    (ha : .phrase a ∈ pieces) : a.Readable := by
  obtain ⟨before, after, rfl⟩ := List.append_of_mem ha
  exact h.readable

end ViewCompiler.Expression
