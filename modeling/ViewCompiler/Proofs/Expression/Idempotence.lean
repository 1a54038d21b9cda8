import ViewCompiler.Proofs.Expression.Rewriting

/-!
# Accesses of an expression with calls

What is read as an access once the accesses are calls. A call holds no access, and behind a quote
that was left open the call's own quotes put its function's name into a literal and leave the next
quote open again (`accessesFrom_openQuote`). What can be read is the name of a function as a path:
a call that stands directly behind a variable and a dot makes the variable an access (`Joined`).
So writing accesses as calls a second time changes nothing exactly if none stands there
(`callAccesses_callAccesses_iff`).
-/

namespace ViewCompiler.Expression

/-! ## Accesses of a text -/

/-- The accesses of a text that follows `colons` colons. -/
def accessesFrom (colons : Nat) (cs : List Char) : List DottedPath :=
  (dottedAccess.piecesFrom colons cs).filterMap Piece.phrase?

/-- The accesses of a text are the one cut off first and those of the rest. -/
theorem accessesFrom_of_piece? {colons : Nat} {cs rest : List Char} {p : Piece DottedPath}
    (h : dottedAccess.piece? colons cs = some (p, rest)) :
    accessesFrom colons cs = p.phrase?.toList ++ accessesFrom (p.colons colons) rest := by
  rw [accessesFrom, piecesFrom_of_piece? h, List.filterMap_cons]
  cases p.phrase? <;> rfl

/-- A literal holds no access. -/
theorem accessesFrom_literal {l : Literal} {rest : List Char}
    (h : literal? (l.text ++ rest) = some (l, rest)) (colons : Nat) :
    accessesFrom colons (l.text ++ rest) = accessesFrom 0 rest :=
  accessesFrom_of_piece? (piece?_literal h)

/-- A character that starts neither a literal nor an access, and what follows it. -/
theorem accessesFrom_char {c : Char} {cs : List Char} {colons : Nat}
    (hliteral : literal? (c :: cs) = none) (h : dotted? colons (c :: cs) = none) :
    accessesFrom colons (c :: cs) =
      accessesFrom ((Piece.char c : Piece DottedPath).colons colons) cs :=
  accessesFrom_of_piece? (piece?_char hliteral h)

/-- An access, and what follows it. -/
theorem accessesFrom_dotted {cs rest : List Char} {a : DottedPath} {colons : Nat}
    (hliteral : literal? cs = none) (h : dotted? colons cs = some (a, rest)) :
    accessesFrom colons cs = a :: accessesFrom 0 rest :=
  accessesFrom_of_piece? (piece?_phrase hliteral h)

/-- Characters that have nothing to do with accesses, and what follows them. -/
theorem accessesFrom_append_plain {run : List Char}
    (hrun : ∀ c ∈ run, isQuote c = false ∧ c ≠ '$' ∧ c ≠ ':') (hne : run ≠ []) (colons : Nat)
    (cs : List Char) : accessesFrom colons (run ++ cs) = accessesFrom 0 cs := by
  have haccesses : (run.map Piece.char).filterMap (Piece.phrase? (α := DottedPath)) = [] := by
    simp [List.filterMap_eq_nil_iff, Piece.phrase?]
  rw [accessesFrom, piecesFrom_append_plain (fun c hc => ?_) (absurd · hne), List.filterMap_append,
    haccesses, List.nil_append, accessesFrom]
  obtain ⟨hquote, hdollar, hcolon⟩ := hrun c hc
  exact ⟨hquote, hcolon, dotted?_eq_none hdollar⟩

/-- The path of a call has nothing to do with accesses. -/
theorem accessesFrom_append_path {a : DottedPath} (h : a.Readable) (cs : List Char) :
    accessesFrom 0 (a.path ++ cs) = accessesFrom 0 cs := by
  refine accessesFrom_append_plain (fun c hc => ?_) h.path_ne_nil 0 cs
  have hchar := h.isPath c hc
  have hquotes : c ≠ '\'' ∧ c ≠ '"' :=
    ⟨ne_of_isPathChar hchar (by decide), ne_of_isPathChar hchar (by decide)⟩
  exact ⟨by simp [isQuote, hquotes], ne_of_isPathChar hchar (by decide),
    ne_of_isPathChar hchar (by decide)⟩

/-- No path starts with another character than a dot. -/
theorem path?_eq_none {c : Char} (h : c ≠ '.') (cs : List Char) : path? (c :: cs) = none := by
  cases hread : path? (c :: cs) with
  | none => rfl
  | some found => exact absurd (List.cons.inj (append_of_path? hread)).1.symm h

/-- A variable that no path follows is no access. -/
theorem dotted?_variable {x rest : List Char} (hx : isIdentifier x)
    (hstop : StopsAt isIdentifierChar rest) (hpath : path? rest = none) (colons : Nat) :
    dotted? colons ('$' :: (x ++ rest)) = none := by
  rw [dotted?, variableName?_append hx hstop]
  simp only [Option.bind_eq_bind, Option.bind_some, hpath, Option.bind_none, ite_self]

/-- **A call holds no access.** -/
theorem accessesFrom_call {a : DottedPath} (h : a.Readable) (colons : Nat) (rest : List Char) :
    accessesFrom colons (a.call ++ rest) = accessesFrom 0 rest := by
  have hname : ∀ c ∈ a.name, isQuote c = false ∧ c ≠ '$' ∧ c ≠ ':' := by
    intro c hc
    have hchar := isIdentifierChar_of_mem h.isIdentifier hc
    exact ⟨isQuote_of_isIdentifierChar hchar, ne_of_isIdentifierChar hchar (by decide),
      ne_of_isIdentifierChar hchar (by decide)⟩
  have hne : a.name ≠ [] := by
    intro heq
    have hidentifier := h.isIdentifier
    rw [heq] at hidentifier
    cases hidentifier
  have hsigil : dotted? 0 ('$' :: (a.name ++ (callEnding a.path ++ rest))) = none :=
    dotted?_variable h.isIdentifier (stopsAt_cons.mpr (by decide)) (path?_eq_none (by decide) _) 0
  have htext : a.call ++ rest = callOpening ++ '$' :: (a.name ++ (callEnding a.path ++ rest)) := by
    rw [call_eq]
    simp
  rw [htext, accessesFrom_append_plain (forall_mem_of_all rfl) (by decide),
    accessesFrom_char (literal?_eq_none (by decide) _) hsigil, colons_eq_zero (by decide),
    accessesFrom_append_plain hname hne, callEnding_eq, List.append_assoc, List.append_assoc,
    accessesFrom_append_plain (forall_mem_of_all rfl) (by decide),
    accessesFrom_literal (literal?_pathLiteral h.isPath _),
    accessesFrom_append_plain (forall_mem_of_all rfl) (by decide)]

/-! ## Expressions without accesses -/

/-- An access is shorter than its call. -/
theorem length_call (a : DottedPath) : a.call.length = a.dotted.length + 13 := by
  rw [call_eq]
  simp only [callOpening, callEnding, DottedPath.dotted, List.length_append, List.length_cons,
    List.length_nil]
  omega

/-- The text of pieces with calls is longer, by the same for each access. -/
theorem length_spelled (pieces : List (Piece DottedPath)) :
    (spelled pieces).length = (pieces.flatMap (Piece.text DottedPath.dotted)).length +
      13 * (pieces.filterMap Piece.phrase?).length := by
  induction pieces with
  | nil => rfl
  | cons p pieces ih =>
    rw [spelled_cons, List.flatMap_cons, List.length_append, List.length_append, ih]
    match p with
    | .literal _ | .char _ =>
      rw [List.filterMap_cons_none rfl, Nat.add_assoc]
      rfl
    | .phrase a =>
      have hphrase : (Piece.phrase a).phrase? = some a := rfl
      rw [List.filterMap_cons_some hphrase, Piece.text, Piece.text, length_call, List.length_cons]
      omega

/-- A text is the same with calls exactly if it holds no access. -/
theorem spelled_eq_self_iff {colons : Nat} {cs : List Char} :
    spelled (dottedAccess.piecesFrom colons cs) = cs ↔ accessesFrom colons cs = [] := by
  refine ⟨fun h => ?_, fun h => spelled_eq_self (List.filterMap_eq_nil_iff.mp h)⟩
  have hlength := length_spelled (dottedAccess.piecesFrom colons cs)
  have htext : (dottedAccess.piecesFrom colons cs).flatMap (Piece.text DottedPath.dotted) = cs :=
    dottedAccess.text_piecesFrom colons cs
  rw [h, htext] at hlength
  exact List.eq_nil_of_length_eq_zero (by rw [accessesFrom]; omega)

/-- An expression with calls is the text of its pieces with calls. -/
theorem toList_callAccesses (expression : String) :
    (callAccesses expression).toList = spelled (dottedAccess.piecesFrom 0 expression.toList) :=
  String.toList_ofList

/-- **Writing accesses as calls changes nothing exactly where there is no access.** -/
theorem callAccesses_eq_self_iff {expression : String} :
    callAccesses expression = expression ↔ accessesFrom 0 expression.toList = [] := by
  rw [← String.toList_inj, toList_callAccesses]
  exact spelled_eq_self_iff

/-! ## Behind an open quote -/

/-- Where nothing closes a quote in a text, nothing closes it in the end of the text. -/
theorem closes_of_append {quote : Char} {escaped : Bool} {text cs : List Char}
    (h : closes quote escaped (text ++ cs) = false) :
    ∃ left, closes quote left cs = false := by
  induction text generalizing escaped with
  | nil => exact ⟨escaped, h⟩
  | cons c text ih =>
    cases escaped with
    | true =>
      have hrest : closes quote false (text ++ cs) = false := h
      exact ih hrest
    | false =>
      rw [List.cons_append, closes] at h
      split at h
      · exact ih h
      · split at h
        · cases h
        · exact ih h

/-- A text in which nothing closes a quote stands inside a literal, with anything behind it that
neither closes the quote nor escapes one. -/
theorem inside_append {quote : Char} {cs run : List Char} (hne : run ≠ [])
    (hrun : ∀ c ∈ run, c ≠ quote ∧ c ≠ '\\') (text : List Char) :
    (closes quote false (text ++ cs) = false → Inside quote (text ++ run)) ∧
      (closes quote true (text ++ cs) = false → Inside quote ('\\' :: (text ++ run))) := by
  have hplain : ∀ run : List Char, (∀ c ∈ run, c ≠ quote ∧ c ≠ '\\') → Inside quote run := by
    intro run
    induction run with
    | nil => exact fun _ => .nil
    | cons c run ih =>
      intro h
      obtain ⟨⟨hquote, hback⟩, h⟩ := List.forall_mem_cons.mp h
      exact .plain hback hquote (ih h)
  induction text with
  | nil =>
    obtain ⟨c, run, rfl⟩ := List.exists_cons_of_ne_nil hne
    exact ⟨fun _ => hplain _ hrun, fun _ => .escape c (hplain run fun d hd =>
      hrun d (List.mem_cons_of_mem c hd))⟩
  | cons c text ih =>
    refine ⟨fun h => ?_, fun h => .escape c (ih.1 h)⟩
    rw [List.cons_append, closes] at h
    split at h
    · rename_i hback
      rw [beq_iff_eq.mp hback]
      exact ih.2 h
    · rename_i hback
      split at h
      · cases h
      · rename_i hquote
        exact .plain (fun heq => hback (beq_iff_eq.mpr heq))
          (fun heq => hquote (beq_iff_eq.mpr heq)) (ih.1 h)

section Pieces

variable {α : Type} {kind : Phrase α} {colons : Nat} {cs : List Char}

/-- The first piece of a text is cut off, and the others are the pieces of the rest. -/
theorem exists_of_piecesFrom_cons {p : Piece α} {pieces : List (Piece α)}
    (h : kind.piecesFrom colons cs = p :: pieces) :
    ∃ rest, kind.piece? colons cs = some (p, rest) ∧
      pieces = kind.piecesFrom (p.colons colons) rest := by
  rw [piecesFrom_eq] at h
  split at h
  · cases h
  · rename_i q rest hpiece
    obtain ⟨rfl, rfl⟩ := List.cons.inj h
    exact ⟨rest, hpiece, rfl⟩

/-- The last pieces of a text are the pieces of the end of the text. -/
theorem exists_of_piecesFrom_append {before after : List (Piece α)}
    (h : kind.piecesFrom colons cs = before ++ after) :
    ∃ left rest, after = kind.piecesFrom left rest ∧
      cs = before.flatMap (Piece.text kind.write) ++ rest := by
  induction before generalizing colons cs with
  | nil => exact ⟨colons, cs, h.symm, rfl⟩
  | cons p before ih =>
    obtain ⟨rest, hpiece, hrest⟩ := exists_of_piecesFrom_cons h
    obtain ⟨left, rest', hafter, rfl⟩ := ih hrest.symm
    refine ⟨left, rest', hafter, ?_⟩
    rw [List.flatMap_cons, List.append_assoc, Phrase.append_of_piece? hpiece]

end Pieces

/-- A text without accesses or with a first one. -/
theorem firstAccess (cs : List Char) :
    (∀ p ∈ dottedAccess.piecesFrom 0 cs, p.phrase? = none) ∨
      ∃ (text : List Char) (a : DottedPath) (rest : List Char), cs = text ++ (a.dotted ++ rest) ∧
        a.Readable ∧
        spelled (dottedAccess.piecesFrom 0 cs) =
          text ++ (a.call ++ spelled (dottedAccess.piecesFrom 0 rest)) := by
  cases hfind : (dottedAccess.piecesFrom 0 cs).find? fun p => p.phrase?.isSome with
  | none =>
    refine .inl fun p hp => ?_
    simpa using List.find?_eq_none.mp hfind p hp
  | some p =>
    obtain ⟨hphrase, before, after, hpieces, hbefore⟩ := List.find?_eq_some_iff_append.mp hfind
    obtain ⟨left, cs', hafter, rfl⟩ := exists_of_piecesFrom_append hpieces
    obtain ⟨rest, hpiece, hrest⟩ := exists_of_piecesFrom_cons hafter.symm
    have hnone : ∀ q ∈ before, q.phrase? = none := fun q hq => by
      simpa using hbefore q hq
    cases p with
    | literal | char => cases hphrase
    | phrase a =>
      refine .inr ⟨before.flatMap (Piece.text DottedPath.dotted), a, rest, ?_,
        (readable_of_dotted? (read?_of_piece? hpiece)).2, ?_⟩
      · exact congrArg _ (Phrase.append_of_piece? hpiece).symm
      · rw [hpieces, spelled_append, spelled_cons, spelled_of_not_phrase hnone, hrest]
        rfl

/-- An access closes no single quote. -/
theorem closes_dotted {a : DottedPath} (h : a.Readable) (escaped : Bool) (rest : List Char) :
    closes '\'' escaped (a.dotted ++ rest) = closes '\'' false rest := by
  refine closes_append_of_forall (List.cons_ne_nil _ _) (List.forall_mem_cons.mpr
    ⟨by decide, List.forall_mem_append.mpr ⟨fun c hc => ?_, List.forall_mem_cons.mpr
      ⟨by decide, fun c hc => ?_⟩⟩⟩) escaped rest
  · have hchar := isIdentifierChar_of_mem h.isIdentifier hc
    exact ⟨ne_of_isIdentifierChar hchar (by decide), ne_of_isIdentifierChar hchar (by decide)⟩
  · have hchar := h.isPath c hc
    exact ⟨ne_of_isPathChar hchar (by decide), ne_of_isPathChar hchar (by decide)⟩

/-- A character that belongs to no literal and no access is a piece of its own. -/
theorem piecesFrom_plain {c : Char} (hquote : isQuote c = false) (hdollar : c ≠ '$')
    (hcolon : c ≠ ':') (colons : Nat) (cs : List Char) :
    dottedAccess.piecesFrom colons (c :: cs) = .char c :: dottedAccess.piecesFrom 0 cs := by
  have hread : dottedAccess.read? colons (c :: cs) = none := dotted?_eq_none hdollar colons cs
  rw [piecesFrom_of_piece? (piece?_char (literal?_eq_none hquote cs) hread), colons_eq_zero hcolon]

/-- What stands between an open quote and the first quote of a call. -/
def quotedFront (text : List Char) (a : DottedPath) : Literal :=
  ⟨'\'', text ++ (callOpening ++ '$' :: (a.name ++ [',', ' ']))⟩

/-- The first quote of a call closes a quote that was left open. -/
theorem literal?_quotedFront {text cs : List Char} (h : closes '\'' false (text ++ cs) = false)
    {a : DottedPath} (ha : a.Readable) (rest : List Char) :
    literal? ((quotedFront text a).text ++ rest) = some (quotedFront text a, rest) := by
  have hplain : ∀ c ∈ callOpening ++ '$' :: (a.name ++ [',', ' ']), c ≠ '\'' ∧ c ≠ '\\' := by
    refine List.forall_mem_append.mpr ⟨forall_mem_of_all rfl, List.forall_mem_cons.mpr
      ⟨by decide, List.forall_mem_append.mpr ⟨fun c hc => ?_, forall_mem_of_all rfl⟩⟩⟩
    have hchar := isIdentifierChar_of_mem ha.isIdentifier hc
    exact ⟨ne_of_isIdentifierChar hchar (by decide), ne_of_isIdentifierChar hchar (by decide)⟩
  have hinside := (inside_append (List.cons_ne_nil _ _) hplain text).1 h
  exact literal?_eq_some_iff.mpr ⟨⟨rfl, hinside⟩, rfl⟩

/-- **Behind an open single quote the calls leave no access.** The first quote of a call closes the

/-- Behind a quote that is not closed, the text that its pieces spell has no accesses. -/
open one, and the second stays open in front of the next call. -/
theorem accessesFrom_openQuote {cs : List Char} (h : closes '\'' false cs = false) (colons : Nat) :
    accessesFrom colons ('\'' :: spelled (dottedAccess.piecesFrom 0 cs)) = [] := by
  -- By induction on the length: what follows the first access is a shorter text behind a quote.
  induction hn : cs.length using Nat.strong_induction_on generalizing cs colons with
  | _ n ih =>
  subst hn
  rcases firstAccess cs with hnone | ⟨text, a, rest, rfl, ha, hspelled⟩
  · rw [spelled_eq_self hnone, accessesFrom_char ((literal?_eq_none_iff rfl).mpr h)
      (dotted?_eq_none (by decide) _ _), colons_eq_zero (by decide)]
    exact List.filterMap_eq_nil_iff.mpr hnone
  · have htext : '\'' :: spelled (dottedAccess.piecesFrom 0 (text ++ (a.dotted ++ rest))) =
        (quotedFront text a).text ++
          (a.path ++ '\'' :: spelled (dottedAccess.piecesFrom 0 (')' :: rest))) := by
      rw [hspelled, call_eq, piecesFrom_plain (by decide) (by decide) (by decide)]
      simp [quotedFront, Literal.text, callEnding, Piece.text]
    have hrest : closes '\'' false (')' :: rest) = false := by
      obtain ⟨escaped, hdotted⟩ := closes_of_append h
      rwa [closes_dotted ha] at hdotted
    have hlt : (')' :: rest).length < (text ++ (a.dotted ++ rest)).length := by
      simp only [DottedPath.dotted, List.length_append, List.length_cons]
      omega
    rw [htext, accessesFrom_literal (literal?_quotedFront h ha _), accessesFrom_append_path ha]
    exact ih _ hlt hrest 0 rfl

/-! ## Where an access starts -/

/-- A path starts with a character of a segment. -/
theorem IsPath.exists_cons {path : List Char} (h : IsPath path) :
    ∃ c left, path = c :: left ∧ isWordChar c := by
  have hsegment : ∀ {s : List Char}, IsSegment s → ∃ c left, s = c :: left ∧ isWordChar c := by
    rintro s ⟨hne, hword⟩
    obtain ⟨c, left, rfl⟩ := List.exists_cons_of_ne_nil hne
    exact ⟨c, left, rfl, hword c List.mem_cons_self⟩
  cases h with
  | segment hs => exact hsegment hs
  | @dot s path hs hpath =>
    obtain ⟨c, left, rfl, hc⟩ := hsegment hs
    exact ⟨c, left ++ '.' :: path, rfl, hc⟩

/-- An access starts behind a sigil exactly if a name, a dot and a character of a segment
follow. -/
theorem exists_dotted?_iff {colons : Nat} {cs : List Char} :
    (∃ found, dotted? colons ('$' :: cs) = some found) ↔
      colons < 2 ∧ ∃ x c left, isIdentifier x ∧ isWordChar c ∧ cs = x ++ '.' :: c :: left := by
  constructor
  · rintro ⟨⟨a, rest⟩, h⟩
    obtain ⟨hcolons, ⟨hname, hpath⟩, -⟩ := isAccess_of_dotted? h
    obtain ⟨-, htext⟩ := List.cons.inj (append_of_dotted? h)
    obtain ⟨c, path, hpath, hc⟩ := hpath.exists_cons
    refine ⟨hcolons, a.name, c, path ++ rest, hname, hc, ?_⟩
    rw [← htext, hpath]
    simp
  · rintro ⟨hcolons, x, c, left, hx, hc, rfl⟩
    have hstop : StopsAt isIdentifierChar ('.' :: c :: left) := stopsAt_cons.mpr (by decide)
    have hpath : path? ('.' :: c :: left) =
        some (c :: (left.takeWhile isWordChar ++ (segments (left.dropWhile isWordChar)).1),
          (segments (left.dropWhile isWordChar)).2) := by
      rw [path?, segments, if_pos hc]
    rw [dotted?, if_neg (Nat.not_le.mpr hcolons), variableName?_append hx hstop]
    simp only [Option.bind_eq_bind, Option.bind_some, hpath]
    exact ⟨_, rfl⟩

/-- A text with calls starts with a call or with a character of the text, if it does not start with
a quote. -/
theorem exists_of_spelled_cons {colons : Nat} {cs left : List Char} {c : Char}
    (hquote : isQuote c = false) (hcolon : c ≠ ':')
    (h : spelled (dottedAccess.piecesFrom colons cs) = c :: left) :
    (∃ a after, dottedAccess.piecesFrom colons cs = .phrase a :: after) ∨
      ∃ rest, cs = c :: rest ∧
        dottedAccess.piecesFrom colons cs = .char c :: dottedAccess.piecesFrom 0 rest ∧
        spelled (dottedAccess.piecesFrom 0 rest) = left := by
  cases hpieces : dottedAccess.piecesFrom colons cs with
  | nil =>
    rw [hpieces] at h
    cases h
  | cons p pieces =>
    rw [hpieces, spelled_cons] at h
    obtain ⟨rest, hpiece, rfl⟩ := exists_of_piecesFrom_cons hpieces
    match p with
    | .literal l =>
      obtain ⟨hterminated, -⟩ := literal?_eq_some_iff.mp (literal?_of_piece? hpiece)
      have hfirst : l.quote = c := (List.cons.inj h).1
      rw [← hfirst, hterminated.isQuote] at hquote
      cases hquote
    | .phrase a => exact .inl ⟨a, _, rfl⟩
    | .char d =>
      obtain ⟨rfl, -⟩ := of_piece?_char hpiece
      obtain ⟨rfl, hleft⟩ := List.cons.inj h
      rw [colons_eq_zero hcolon] at hleft ⊢
      exact .inr ⟨rest, rfl, rfl, hleft⟩

/-- A call does not start with a name and a dot: its function's name ends before a parenthesis. -/
theorem call_append_ne (a : DottedPath) {x : List Char} (hx : ∀ c ∈ x, isIdentifierChar c)
    (rest left : List Char) : a.call ++ rest ≠ x ++ '.' :: left := by
  let function := ['d', 'a', 't', 'a', '_', 'g', 'e', 't']
  have hfunction : ∀ c ∈ function, isIdentifierChar c := forall_mem_of_all rfl
  have htext :
    a.call ++ rest = function ++ '(' :: '$' :: (a.name ++ (callEnding a.path ++ rest)) := by
    rw [call_eq]
    simp [callOpening, function]
  intro h
  have hdrop := congrArg (List.dropWhile isIdentifierChar) h
  rw [htext, dropWhile_append_stop hfunction (stopsAt_cons.mpr rfl),
    dropWhile_append_stop hx (stopsAt_cons.mpr rfl)] at hdrop
  exact absurd (List.cons.inj hdrop).1 (by decide)

/-- A name and a dot at the start of a text with calls are those of the text. -/
theorem exists_of_spelled_dot {cs x left : List Char} (hx : ∀ c ∈ x, isIdentifierChar c)
    (h : spelled (dottedAccess.piecesFrom 0 cs) = x ++ '.' :: left) :
    ∃ rest, cs = x ++ '.' :: rest ∧
      dottedAccess.piecesFrom 0 cs = x.map .char ++ .char '.' :: dottedAccess.piecesFrom 0 rest ∧
      spelled (dottedAccess.piecesFrom 0 rest) = left := by
  induction x generalizing cs with
  | nil =>
    rcases exists_of_spelled_cons (by decide) (by decide) h with ⟨a, after, hcall⟩ | hchar
    · rw [hcall, spelled_cons] at h
      exact absurd h (call_append_ne a hx _ left)
    · exact hchar
  | cons c x ih =>
    obtain ⟨hc, htail⟩ := List.forall_mem_cons.mp hx
    rcases exists_of_spelled_cons (isQuote_of_isIdentifierChar hc)
      (ne_of_isIdentifierChar hc (by decide)) h with ⟨a, after, hcall⟩ |
        ⟨rest, rfl, hpieces, hrest⟩
    · rw [hcall, spelled_cons] at h
      exact absurd h (call_append_ne a hx _ left)
    · obtain ⟨rest', rfl, hpieces', hleft⟩ := ih htail hrest
      exact ⟨rest', rfl, by rw [hpieces, hpieces']; rfl, hleft⟩

/-- **The one way in which calls make an access**: at a sigil where none starts, one starts in
front of the calls exactly if an access stands behind a variable and a dot. -/
theorem exists_dotted?_spelled_iff {colons : Nat} {cs : List Char}
    (h : dotted? colons ('$' :: cs) = none) :
    (∃ found, dotted? colons ('$' :: spelled (dottedAccess.piecesFrom 0 cs)) = some found) ↔
      colons < 2 ∧ ∃ x a after, isIdentifier x ∧
        dottedAccess.piecesFrom 0 cs = x.map .char ++ .char '.' :: .phrase a :: after := by
  rw [exists_dotted?_iff]
  refine and_congr_right fun hcolons => ⟨?_, ?_⟩
  · rintro ⟨x, c, left, hx, hc, hspelled⟩
    obtain ⟨rest, rfl, hpieces, hrest⟩ :=
      exists_of_spelled_dot (fun c => isIdentifierChar_of_mem hx) hspelled
    have hchar : isIdentifierChar c = true := by rw [isIdentifierChar, hc, Bool.true_or]
    rcases exists_of_spelled_cons (isQuote_of_isIdentifierChar hchar)
      (ne_of_isIdentifierChar hchar (by decide)) hrest with ⟨a, after, hcall⟩ | ⟨rest', rfl, -⟩
    · exact ⟨x, a, after, hx, by rw [hpieces, hcall]⟩
    · obtain ⟨found, hfound⟩ := exists_dotted?_iff.mpr ⟨hcolons, x, c, rest', hx, hc, rfl⟩
      rw [h] at hfound
      cases hfound
  · rintro ⟨x, a, after, hx, hpieces⟩
    refine ⟨x, 'd', a.call.tail ++ spelled after, hx, by decide, ?_⟩
    rw [hpieces, spelled_append, spelled_map_char, spelled_cons, spelled_cons, Piece.text,
      Piece.text, call_eq]
    rfl

/-! ## Accesses behind a variable and a dot -/

/-- Among the pieces of a text behind `colons` colons, an access stands directly behind a variable
and a dot, and no single quote that opens no literal stands before it. -/
inductive Joined : Nat → List (Piece DottedPath) → Prop where
  | here {colons : Nat} {x : List Char} {a : DottedPath} {after : List (Piece DottedPath)}
    (hcolons : colons < 2) (hx : isIdentifier x) :
    Joined colons (.char '$' :: (x.map .char ++ .char '.' :: .phrase a :: after))
  | behind {colons : Nat} {p : Piece DottedPath} {pieces : List (Piece DottedPath)}
    (hp : p ≠ .char '\'') (h : Joined (p.colons colons) pieces) : Joined colons (p :: pieces)

/-- An access of the expression stands directly behind a variable and a dot, as in `$x.$user.name`,
and no single quote that opens no literal stands before it. -/
def IsJoined (expression : String) : Prop :=
  ∃ pieces, AccessCut expression.toList pieces ∧ Joined 0 pieces

/-- Behind another piece than a sigil and an open single quote. -/
theorem joined_cons_iff {colons : Nat} {p : Piece DottedPath} {pieces : List (Piece DottedPath)}
    (hquote : p ≠ .char '\'') (hsigil : p ≠ .char '$') :
    Joined colons (p :: pieces) ↔ Joined (p.colons colons) pieces := by
  refine ⟨fun h => ?_, .behind hquote⟩
  cases h with
  | here => exact absurd rfl hsigil
  | behind _ h => exact h

/-- Behind a sigil. -/
theorem joined_sigil_iff {colons : Nat} {pieces : List (Piece DottedPath)} :
    Joined colons (.char '$' :: pieces) ↔
      (colons < 2 ∧ ∃ x a after, isIdentifier x ∧
        pieces = x.map .char ++ .char '.' :: .phrase a :: after) ∨ Joined 0 pieces := by
  constructor
  · intro h
    cases h with
    | here hcolons hx => exact .inl ⟨hcolons, _, _, _, hx, rfl⟩
    | behind _ h => exact .inr h
  · rintro (⟨hcolons, x, a, after, hx, rfl⟩ | h)
    · exact .here hcolons hx
    · exact .behind (by simp) h

/-- **Calls leave an access exactly where one stands behind a variable and a dot.** -/
theorem accessesFrom_spelled_eq_nil_iff {colons : Nat} {cs : List Char} :
    accessesFrom colons (spelled (dottedAccess.piecesFrom colons cs)) = [] ↔
      ¬ Joined colons (dottedAccess.piecesFrom colons cs) := by
  fun_induction Phrase.piecesFrom dottedAccess colons cs with
  | case1 colons cs h =>
    have hnil : accessesFrom colons (spelled []) = [] := by
      rw [accessesFrom, piecesFrom_eq]
      rfl
    exact iff_of_true hnil fun h => by cases h
  | case2 colons cs p rest hpiece ih =>
    rw [spelled_cons]
    cases p with
    | literal l =>
      have hread := literal?_of_piece? hpiece
      rw [← append_of_literal? hread] at hread
      rw [joined_cons_iff (by simp) (by simp), Piece.text,
        accessesFrom_literal (literal?_append hread _)]
      exact ih
    | phrase a =>
      have ha := (readable_of_dotted? (read?_of_piece? hpiece)).2
      rw [joined_cons_iff (by simp) (by simp), Piece.text, accessesFrom_call ha]
      exact ih
    | char c =>
      obtain ⟨rfl, hliteral, hread⟩ := of_piece?_char hpiece
      rw [Piece.text, List.singleton_append]
      by_cases hsingle : c = '\''
      · subst hsingle
        have hopen := (literal?_eq_none_iff rfl).mp hliteral
        rw [colons_eq_zero (by decide)]
        refine ⟨fun _ h => ?_, fun _ => accessesFrom_openQuote hopen colons⟩
        cases h with
        | behind hp _ => exact hp rfl
      have hspelled : literal? (c :: spelled (dottedAccess.piecesFrom
          ((Piece.char c : Piece DottedPath).colons colons) rest)) = none :=
        literal?_spelled hsingle hliteral
      by_cases hsigil : c = '$'
      · subst hsigil
        rw [colons_eq_zero (by decide)] at hspelled ih ⊢
        rw [joined_sigil_iff, ← exists_dotted?_spelled_iff hread]
        cases hdotted : dotted? colons ('$' :: spelled (dottedAccess.piecesFrom 0 rest)) with
        | none =>
          rw [accessesFrom_char hspelled hdotted, colons_eq_zero (by decide), ih]
          simp
        | some found =>
          rw [accessesFrom_dotted hspelled hdotted]
          simp
      · rw [joined_cons_iff (by simpa using hsingle) (by simpa using hsigil),
          accessesFrom_char hspelled (dotted?_eq_none hsigil _ _)]
        exact ih

/-- **Writing the accesses of an expression as calls twice is writing them once exactly if none
stands directly behind a variable and a dot.** -/
theorem callAccesses_callAccesses_iff {expression : String} :
    callAccesses (callAccesses expression) = callAccesses expression ↔ ¬ IsJoined expression := by
  have hjoined : IsJoined expression ↔
      Joined 0 (dottedAccess.piecesFrom 0 expression.toList) := by
    constructor
    · rintro ⟨pieces, hcut, hjoined⟩
      rwa [← accessCut_iff.mp hcut] at hjoined
    · exact fun h => ⟨_, accessCut_iff.mpr rfl, h⟩
  rw [callAccesses_eq_self_iff, toList_callAccesses, accessesFrom_spelled_eq_nil_iff, hjoined]

end ViewCompiler.Expression
