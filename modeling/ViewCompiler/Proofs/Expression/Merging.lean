import Mathlib.Data.List.Induction
import ViewCompiler.Proofs.Expression.Mentions

/-!
# A variable that becomes the argument of a call

Where a call is the argument of the accessor function and a path stands behind it, a variable in
its place makes a new call: the function's name, the variable and the path were other pieces before
and are one piece now. So after an exchange the pieces are the old ones with the characters of the
variable in place of the call, or they are merged around it (`exists_pieces_exchange`).
-/

namespace ViewCompiler.Expression

/-! ## Characters that are pieces of their own -/

/-- A piece is one character if its last character ends neither a literal nor a call. -/
theorem CutsOff.eq_char {p : CallPiece} {rest : List Char} (h : CutsOff p rest) {c : Char}
    (hlast : (p.text DottedPath.call).getLast? = some c) (hquote : isQuote c = false)
    (hparen : c ≠ ')') : p = .char c := by
  cases p with
  | char d =>
    obtain rfl : d = c := by simpa [Piece.text] using hlast
    rfl
  | literal l =>
    have hread := literal?_of_cutsOff h
    obtain rfl : l.quote = c := by
      rw [Piece.text, Literal.text, ← List.cons_append, List.getLast?_concat] at hlast
      exact Option.some.inj hlast
    rw [Literal.text, List.cons_append, literal?_eq_none hquote] at hread
    cases hread
  | phrase a =>
    have hcall :
      a.call = callOpening ++ '$' :: (a.name ++ ',' :: ' ' :: '\'' :: (a.path ++ ['\''])) ++
        [')'] := by
      rw [call_eq]
      simp [callEnding]
    rw [Piece.text, hcall, List.getLast?_concat] at hlast
    exact absurd (Option.some.inj hlast).symm hparen

/-- Characters that end neither a literal nor a call are pieces of their own. -/
theorem IsCut.exists_chars {before after : List CallPiece} (hcut : IsCut (before ++ after))
    {w : List Char} (hw : ∀ c ∈ w, isQuote c = false ∧ c ≠ ')') (h : w <:+ spelled before) :
    ∃ pre, before = pre ++ w.map .char := by
  induction w using List.reverseRecOn generalizing before after with
  | nil => exact ⟨before, by simp⟩
  | append_singleton w c ih =>
    obtain ⟨t, ht⟩ := h
    rcases List.eq_nil_or_concat before with rfl | ⟨init, p, rfl⟩
    · simp at ht
    · rw [List.concat_eq_append] at ht hcut ⊢
      rw [List.append_assoc] at hcut
      obtain ⟨hquote, hparen⟩ := hw c (by simp)
      have hne : p.text DottedPath.call ≠ [] := accessor.text_ne_nil p
      have hlast : (p.text DottedPath.call).getLast? = some c := by
        have hend := congrArg List.getLast? ht
        rw [← List.append_assoc, List.getLast?_concat, spelled_append, spelled_cons, spelled_nil,
          List.append_nil, List.getLast?_append_of_ne_nil _ hne] at hend
        exact hend.symm
      obtain rfl := (isCut_cons.mp hcut.of_append).1.eq_char hlast hquote hparen
      rw [← List.append_assoc, spelled_append] at ht
      obtain ⟨pre, rfl⟩ := ih hcut (fun d hd => hw d (by simp [hd]))
        ⟨t, List.append_cancel_right ht⟩
      exact ⟨pre, by simp⟩

/-! ## The end of a call -/

/-- What stands behind the variable in a call, as pieces where it stands alone. -/
def endingPieces (path : List Char) : List CallPiece :=
  [.char ',', .char ' ', .literal (pathLiteral path), .char ')']

/-- The pieces of a call's ending spell the ending. -/
@[simp] theorem spelled_endingPieces (path : List Char) :
    spelled (endingPieces path) = callEnding path := by
  rw [callEnding_eq]
  simp [endingPieces, Piece.text]

/-- The end of a call is cut off whatever stands behind it. -/
theorem pieces_append_ending {path : List Char} (h : ∀ c ∈ path, isPathChar c) (rest : List Char) :
    accessor.pieces (callEnding path ++ rest) = endingPieces path ++ accessor.pieces rest := by
  have hliteral := literal?_pathLiteral h (')' :: rest)
  rw [callEnding_eq, List.append_assoc, List.append_assoc, List.cons_append, List.cons_append,
    pieces_char (literal?_eq_none (by decide) _) rfl, List.nil_append,
    pieces_char (literal?_eq_none (by decide) _) rfl, List.singleton_append,
    pieces_eq_cons (piece?_literal hliteral),
    pieces_char (literal?_eq_none (by decide) _) rfl]
  rfl

/-! ## Exchange -/

/-- **The pieces with a variable in place of a call**: the variable's characters stand in place of
the call, or the variable is the argument of a new call with the path that stands behind it. -/
theorem exists_pieces_exchange {before after : List CallPiece} {a : DottedPath} {x : List Char}
    (h : IsCut (before ++ .phrase a :: after)) (hstops : StopsAt isIdentifierChar (spelled after))
    (hx : isIdentifier x) (hcalled : functionName <:+ x → ¬ ['('] <+: spelled after) :
    IsCut (before ++ (variablePieces x ++ after)) ∨
      ∃ pre path rest, before = pre ++ callOpening.map .char ∧ after = endingPieces path ++ rest ∧
        IsCut (pre ++ .phrase ⟨x, path⟩ :: rest) := by
  by_cases hargument : callOpening <:+ spelled before ∧
      ∃ path, path ≠ [] ∧ (∀ c ∈ path, isPathChar c) ∧ callEnding path <+: spelled after
  · obtain ⟨hopening, path, hne, hpath, rest, hrest⟩ := hargument
    obtain ⟨pre, rfl⟩ := h.exists_chars (forall_mem_of_all rfl) hopening
    have hquotes : QuotesStayOpen (pre ++ callOpening.map .char) (a.call ++ spelled after)
        ('$' :: (x ++ spelled after)) := quotesStayOpen_variable h.readable hx _
    rw [List.append_assoc] at h
    have hafter : IsCut after := (isCut_cons.mp (h.of_append).of_append).2
    have hcall : IsCut (.phrase ⟨x, path⟩ :: accessor.pieces rest) :=
      isCut_cons.mpr ⟨cutsOff_phrase.mpr ⟨hx, hne, hpath⟩, isCut_pieces rest⟩
    have hold : spelled (callOpening.map .char ++ .phrase a :: after) =
        callOpening ++ (a.call ++ spelled after) := by
      simp [Piece.text]
    have hnew : spelled (.phrase ⟨x, path⟩ :: accessor.pieces rest) =
        callOpening ++ '$' :: (x ++ (callEnding path ++ rest)) := by
      simp [Piece.text, call_eq]
    refine .inr ⟨pre, path, accessor.pieces rest, rfl, ?_, h.change ?_ hcall ?_⟩
    · rw [← pieces_append_ending hpath, hrest]
      exact hafter.symm
    · rw [hold, hnew, hrest, ← spelled_map_char callOpening]
      exact hquotes.of_append
    · -- A call that starts before the opening does not reach over its parenthesis.
      intro u hu _ hnone
      have hstop : StopsAt isIdentifierChar (callEnding path ++ rest) :=
        stopsAt_cons.mpr (by decide)
      rw [hold, ← List.append_assoc] at hnone
      rw [hnew, ← List.append_assoc]
      exact accessor?_append_variable hx hstop (fun heq => absurd (by simpa using heq) hu) hnone
  · refine .inl (isCut_exchange h hstops hx ⟨?_, hcalled⟩)
    exact fun hopening path hne hpath hending => hargument ⟨hopening, path, hne, hpath, hending⟩

end ViewCompiler.Expression
