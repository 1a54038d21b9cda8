import ViewCompiler.Expression.Access
import ViewCompiler.Proofs.Expression.Cutting

/-!
# Quotes that are not closed

A quote opens a literal only if one closes it later, so what stands behind a quote decides what it
is. Calls, accesses and variables hold no double quote and take no backslash's character away, so
writing one in place of another closes nothing (`closes_flatMap_text`); and in front of a call no
single quote is left open, since the call holds two. So the quotes before a call that open no
literal open none when a variable takes the call's place (`quotesStayOpen_variable`).
-/

namespace ViewCompiler.Expression

/-- Reading behind an opening quote, where a backslash takes the next character away, comes to the
closing one. -/
def closes (quote : Char) : (escaped : Bool) → List Char → Bool
  | _, [] => false
  | true, _ :: cs => closes quote false cs
  | false, c :: cs =>
    if c == '\\' then closes quote true cs
    else if c == quote then true else closes quote false cs

/-- A quote is closed exactly if the scan for it says so. -/
theorem isSome_closeQuote? (quote : Char) (cs : List Char) :
    (closeQuote? quote cs).isSome = closes quote false cs := by
  fun_induction closeQuote? quote cs with
  | case1 => rfl
  | case2 => rfl
  | case3 c cs ih => rw [Option.isSome_map, ih]; rfl
  | case4 c cs hnil hcons hc =>
    have hback : (c == '\\') = false := beq_eq_false_iff_ne.mpr (ne_backslash hnil hcons)
    simp only [Option.isSome_some, closes, hback, hc, if_true, Bool.false_eq_true, if_false]
  | case5 c cs hnil hcons hc ih =>
    have hback : (c == '\\') = false := beq_eq_false_iff_ne.mpr (ne_backslash hnil hcons)
    simp only [Option.isSome_map, closes, hback, hc, Bool.false_eq_true, if_false, ih]

/-- A quote opens no literal if none closes it. -/
theorem literal?_eq_none_iff {quote : Char} (h : isQuote quote = true) {cs : List Char} :
    literal? (quote :: cs) = none ↔ closes quote false cs = false := by
  rw [literal?, if_pos h, Option.map_eq_none_iff, ← isSome_closeQuote?,
    ← Option.isNone_iff_eq_none, ← Option.not_isSome, Bool.not_eq_true']

/-- What follows a text matters only for itself. -/
theorem closes_append {quote : Char} {cs ds : List Char}
    (h : ∀ escaped, closes quote escaped cs = closes quote escaped ds) (text : List Char)
    (escaped : Bool) : closes quote escaped (text ++ cs) = closes quote escaped (text ++ ds) := by
  induction text generalizing escaped with
  | nil => exact h escaped
  | cons c text ih =>
    cases escaped with
    | true => exact ih false
    | false => simp only [List.cons_append, closes, ih]

/-- A single quote behind a blank closes whatever one opened before. -/
theorem closes_append_blank (text rest : List Char) (escaped : Bool) :
    closes '\'' escaped (text ++ ' ' :: '\'' :: rest) = true := by
  induction text generalizing escaped with
  | nil => cases escaped <;> simp [closes]
  | cons c text ih =>
    cases escaped with
    | true => exact ih false
    | false =>
      simp only [List.cons_append, closes, ih]
      split
      · rfl
      · split <;> rfl

/-! ## Plain texts -/

/-- Nothing is closed in a text that is not empty and holds neither the quote nor a backslash. -/
theorem closes_append_of_forall {quote : Char} {text : List Char} (hne : text ≠ [])
    (h : ∀ c ∈ text, c ≠ quote ∧ c ≠ '\\') (escaped : Bool) (cs : List Char) :
    closes quote escaped (text ++ cs) = closes quote false cs := by
  induction text generalizing escaped with
  | nil => exact absurd rfl hne
  | cons c text ih =>
    obtain ⟨⟨hquote, hback⟩, htext⟩ := List.forall_mem_cons.mp h
    have hrest : closes quote false (text ++ cs) = closes quote false cs := by
      cases text with
      | nil => rfl
      | cons d text => exact ih (List.cons_ne_nil d text) htext false
    cases escaped with
    | true => exact hrest
    | false => simp [closes, hquote, hback, hrest]

/-- A text that is not empty and holds neither a double quote nor a backslash. -/
structure Plain (text : List Char) : Prop where
  ne_nil : text ≠ []
  ne_of_mem : ∀ c ∈ text, c ≠ '"' ∧ c ≠ '\\'

/-- Nothing is closed in a plain text. -/
theorem Plain.closes_append {text : List Char} (h : Plain text) (escaped : Bool) (cs : List Char) :
    closes '"' escaped (text ++ cs) = closes '"' false cs :=
  closes_append_of_forall h.ne_nil h.ne_of_mem escaped cs

/-- Plain texts make a plain text. -/
theorem Plain.append {text text' : List Char} (h : Plain text) (h' : Plain text') :
    Plain (text ++ text') := by
  refine ⟨List.append_ne_nil_of_left_ne_nil h.ne_nil _, fun c hc => ?_⟩
  rcases List.mem_append.mp hc with hc | hc
  · exact h.ne_of_mem c hc
  · exact h'.ne_of_mem c hc

/-- A variable is plain. -/
theorem plain_variable {x : List Char} (h : isIdentifier x) : Plain ('$' :: x) := by
  refine ⟨List.cons_ne_nil _ _, List.forall_mem_cons.mpr ⟨by decide, fun c hc => ?_⟩⟩
  have hchar := isIdentifierChar_of_mem h hc
  exact ⟨ne_of_isIdentifierChar hchar (by decide), ne_of_isIdentifierChar hchar (by decide)⟩

namespace DottedPath.Readable

variable {a : DottedPath}

/-- The path of a call that can be read is plain. -/
theorem plain_path (h : a.Readable) : Plain a.path := by
  refine ⟨h.path_ne_nil, fun c hc => ?_⟩
  have hchar := h.isPath c hc
  exact ⟨ne_of_isPathChar hchar (by decide), ne_of_isPathChar hchar (by decide)⟩

/-- An access is plain. -/
theorem plain_dotted (h : a.Readable) : Plain a.dotted := by
  have hdot : Plain ['.'] := ⟨by decide, forall_mem_of_all rfl⟩
  exact (plain_variable h.isIdentifier).append (hdot.append h.plain_path)

/-- A call is plain. -/
theorem plain_call (h : a.Readable) : Plain a.call := by
  have hopening : Plain callOpening := ⟨by decide, forall_mem_of_all rfl⟩
  have hcomma : Plain [',', ' ', '\''] := ⟨by decide, forall_mem_of_all rfl⟩
  have hparen : Plain ['\'', ')'] := ⟨by decide, forall_mem_of_all rfl⟩
  rw [call_eq]
  exact hopening.append ((plain_variable h.isIdentifier).append
    (hcomma.append (h.plain_path.append hparen)))

end DottedPath.Readable

/-- Writing one plain text in place of another for each phrase closes nothing. -/
theorem closes_flatMap_text {α : Type} {write write' : α → List Char} {pieces : List (Piece α)}
    (h : ∀ a, .phrase a ∈ pieces → Plain (write a) ∧ Plain (write' a)) (escaped : Bool) :
    closes '"' escaped (pieces.flatMap (Piece.text write)) =
      closes '"' escaped (pieces.flatMap (Piece.text write')) := by
  induction pieces generalizing escaped with
  | nil => rfl
  | cons p pieces ih =>
    have hrest := ih fun a ha => h a (List.mem_cons_of_mem p ha)
    rw [List.flatMap_cons, List.flatMap_cons]
    match p with
    | .literal l => exact closes_append hrest l.text escaped
    | .char c => exact closes_append hrest [c] escaped
    | .phrase a =>
      obtain ⟨hwrite, hwrite'⟩ := h a List.mem_cons_self
      rw [Piece.text, Piece.text, hwrite.closes_append, hwrite'.closes_append]
      exact hrest false

/-! ## Quotes in front of another text -/

/-- No piece is a quote that opens no literal. -/
def NoLoneQuote (pieces : List CallPiece) : Prop := ∀ c, .char c ∈ pieces → isQuote c = false

/-- The quotes among the pieces that open no literal in front of the first text open none in front
of the second. -/
def QuotesStayOpen (pieces : List CallPiece) (old new : List Char) : Prop :=
  ∀ c rest, .char c :: rest <:+ pieces → literal? (c :: (spelled rest ++ old)) = none →
    literal? (c :: (spelled rest ++ new)) = none

/-- Without a lone quote there is none that could be closed. -/
theorem NoLoneQuote.stayOpen {pieces : List CallPiece} (h : NoLoneQuote pieces)
    (old new : List Char) : QuotesStayOpen pieces old new := fun c _ hsuffix _ =>
  literal?_eq_none (h c (hsuffix.subset List.mem_cons_self)) _

/-- If the quotes of pieces stay open, so do those behind the first piece. -/
theorem QuotesStayOpen.of_cons {p : CallPiece} {pieces : List CallPiece} {old new : List Char}
    (h : QuotesStayOpen (p :: pieces) old new) : QuotesStayOpen pieces old new :=
  fun c rest hsuffix => h c rest (hsuffix.trans (List.suffix_cons p pieces))

/-- Quotes that stay open before some pieces do so before what these spell. -/
theorem QuotesStayOpen.of_append {pieces mid : List CallPiece} {old new : List Char}
    (h : QuotesStayOpen (pieces ++ mid) old new) :
    QuotesStayOpen pieces (spelled mid ++ old) (spelled mid ++ new) := by
  rintro c rest ⟨front, rfl⟩ hnone
  have hall := h c (rest ++ mid) ⟨front, by simp⟩
  rw [spelled_append, List.append_assoc, List.append_assoc] at hall
  exact hall hnone

/-- **Quotes stay open before a call** in front of every text that closes the same double quotes: a
single quote would be closed by the call. -/
theorem quotesStayOpen_call {pieces : List CallPiece} {a : DottedPath} {rest new : List Char}
    (h : ∀ escaped, closes '"' escaped (a.call ++ rest) = closes '"' escaped new) :
    QuotesStayOpen pieces (a.call ++ rest) new := by
  intro c after _ hnone
  by_cases hquote : isQuote c = true
  · rw [literal?_eq_none_iff hquote] at hnone ⊢
    rcases (Bool.or_eq_true _ _).mp hquote with hc | hc
    · obtain rfl := beq_iff_eq.mp hc
      have hcall : spelled after ++ (a.call ++ rest) =
          (spelled after ++ (callOpening ++ '$' :: (a.name ++ [',']))) ++
            ' ' :: '\'' :: (a.path ++ '\'' :: ')' :: rest) := by
        rw [call_eq]
        simp [callEnding]
      rw [hcall, closes_append_blank] at hnone
      exact absurd hnone (by decide)
    · obtain rfl := beq_iff_eq.mp hc
      rwa [← closes_append h]
  · exact literal?_eq_none (Bool.eq_false_iff.mpr hquote) _

/-- Quotes stay open when a variable takes a call's place. -/
theorem quotesStayOpen_variable {pieces : List CallPiece} {a : DottedPath} (h : a.Readable)
    {x : List Char} (hx : isIdentifier x) (rest : List Char) :
    QuotesStayOpen pieces (a.call ++ rest) ('$' :: (x ++ rest)) := by
  refine quotesStayOpen_call fun escaped => ?_
  rw [h.plain_call.closes_append]
  exact ((plain_variable hx).closes_append escaped rest).symm

end ViewCompiler.Expression
