import ViewCompiler.Expression.Literal

/-!
# Phrases in an expression

The compiler never parses a PHP expression. It only looks for phrases of a few kinds in it
(variables, dotted accesses, accessor calls), from left to right and never inside a closed literal.
A `Phrase` says how phrases of one kind are read and written; `pieces` cuts a text into closed
literals, phrases and other single characters. The pieces as written make up the text
(`text_pieces`), so a change of the phrases alone leaves all else as it was.

A reader is told how many colons stand directly before the text, because a variable after a double
colon is a static property and no variable.
-/

namespace ViewCompiler.Expression

/-! ## Kinds of phrases -/

/-- A kind of phrase, with values in `α`: its reader, which gives the value and the rest of the
text, and its writer. What is read is what is written, and no phrase is empty. -/
structure Phrase (α : Type) where
  read? : (colons : Nat) → List Char → Option (α × List Char)
  write : α → List Char
  append_of_read? : ∀ {colons : Nat} {cs : List Char} {a : α} {rest : List Char},
    read? colons cs = some (a, rest) → write a ++ rest = cs
  write_ne_nil : ∀ a, write a ≠ []

/-- A piece of a text: a closed literal, a phrase, or one other character. -/
inductive Piece (α : Type) where
  | literal (value : Literal)
  | phrase (value : α)
  | char (c : Char)

namespace Piece

variable {α : Type}

/-- A piece as text, its phrase written by `write`. -/
def text (write : α → List Char) : Piece α → List Char
  | .literal value => value.text
  | .phrase value => write value
  | .char c => [c]

/-- The phrase that a piece is, if it is one. -/
def phrase? : Piece α → Option α
  | .phrase value => some value
  | _ => none

/-- The number of colons at the end of a text that ends with the piece, after `before` colons. -/
def colons (before : Nat) : Piece α → Nat
  | .char ':' => before + 1
  | _ => 0

end Piece

/-! ## Cutting a text -/

namespace Phrase

variable {α : Type}

/-- The piece at the start of a text and the rest: a literal if one starts here, else a phrase,
else one character. -/
def piece? (kind : Phrase α) (colons : Nat) : List Char → Option (Piece α × List Char)
  | [] => none
  | c :: cs =>
    match literal? (c :: cs) with
    | some (value, rest) => some (.literal value, rest)
    | none =>
      match kind.read? colons (c :: cs) with
      | some (value, rest) => some (.phrase value, rest)
      | none => some (.char c, cs)

/-- A piece and the rest make up the text. -/
theorem append_of_piece? {kind : Phrase α} {colons : Nat} {cs : List Char} {piece : Piece α}
    {rest : List Char} (h : kind.piece? colons cs = some (piece, rest)) :
    piece.text kind.write ++ rest = cs := by
  cases cs with
  | nil => simp [piece?] at h
  | cons c cs =>
    simp only [piece?] at h
    split at h
    · rename_i h'
      obtain ⟨rfl, rfl⟩ := Prod.mk.inj (Option.some.inj h)
      exact append_of_literal? h'
    · split at h
      · rename_i h'
        obtain ⟨rfl, rfl⟩ := Prod.mk.inj (Option.some.inj h)
        exact kind.append_of_read? h'
      · obtain ⟨rfl, rfl⟩ := Prod.mk.inj (Option.some.inj h)
        rfl

/-- No piece is empty. -/
theorem text_ne_nil (kind : Phrase α) : ∀ piece : Piece α, piece.text kind.write ≠ []
  | .literal _ => by simp [Piece.text, Literal.text]
  | .phrase value => kind.write_ne_nil value
  | .char _ => by simp [Piece.text]

/-- Reading a piece makes the text shorter. -/
theorem length_lt_of_piece? {kind : Phrase α} {colons : Nat} {cs : List Char} {piece : Piece α}
    {rest : List Char} (h : kind.piece? colons cs = some (piece, rest)) :
    rest.length < cs.length := by
  have hpos := List.length_pos_iff.mpr (kind.text_ne_nil piece)
  rw [← append_of_piece? h, List.length_append]
  omega

/-- A text without a first piece is empty. -/
theorem eq_nil_of_piece?_eq_none {kind : Phrase α} {colons : Nat} {cs : List Char}
    (h : kind.piece? colons cs = none) : cs = [] := by
  cases cs with
  | nil => rfl
  | cons c cs =>
    simp only [piece?] at h
    split at h
    · simp at h
    · split at h <;> simp at h

/-- The pieces of a text that follows `colons` colons. -/
def piecesFrom (kind : Phrase α) (colons : Nat) (cs : List Char) : List (Piece α) :=
  match _h : kind.piece? colons cs with
  | none => []
  | some (piece, rest) => piece :: kind.piecesFrom (piece.colons colons) rest
termination_by cs.length
decreasing_by exact length_lt_of_piece? (by assumption)

/-- The pieces of a text. -/
def pieces (kind : Phrase α) (cs : List Char) : List (Piece α) := kind.piecesFrom 0 cs

/-- The pieces as written make up the text, whatever comes before it. -/
theorem text_piecesFrom (kind : Phrase α) (colons : Nat) (cs : List Char) :
    (kind.piecesFrom colons cs).flatMap (Piece.text kind.write) = cs := by
  fun_induction piecesFrom kind colons cs with
  | case1 colons cs h => simp [eq_nil_of_piece?_eq_none h]
  | case2 colons cs piece rest h ih => rw [List.flatMap_cons, ih, append_of_piece? h]

/-- The pieces as written make up the text. -/
theorem text_pieces (kind : Phrase α) (cs : List Char) :
    (kind.pieces cs).flatMap (Piece.text kind.write) = cs := kind.text_piecesFrom 0 cs

/-! ## What is done with phrases -/

/-- The phrases of an expression, in order. -/
def all (kind : Phrase α) (expression : String) : List α :=
  (kind.pieces expression.toList).filterMap Piece.phrase?

/-- The expression with every phrase written in another way. -/
def respell (kind : Phrase α) (write : α → List Char) (expression : String) : String :=
  String.ofList ((kind.pieces expression.toList).flatMap (Piece.text write))

/-- Writing every phrase as it was changes nothing. -/
theorem respell_write (kind : Phrase α) (expression : String) :
    kind.respell kind.write expression = expression := by
  rw [respell, text_pieces, String.ofList_toList]

end Phrase

end ViewCompiler.Expression
