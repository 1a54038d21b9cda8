import ViewCompiler.Proofs.Expression.Mentions

/-!
# Mentions of an expression whose accesses are calls

Writing the dotted accesses of an expression as calls inserts a function's name and a literal. The
name becomes part of a variable if it comes to stand directly behind a sigil or a variable, and the
literal closes a single quote that was left open before it. `accessesApart` says that neither
happens; then the expression mentions the same variables, in the same order
(`mentioned_callAccesses`).
-/

namespace ViewCompiler.Expression

/-! ## Where accesses stand -/

/-- The end of a text, as far as it matters to a name that is put behind it: the sigil of a
variable, a variable, or something else. -/
inductive Ending where
  | sigil
  | variable
  | other
deriving DecidableEq

/-- The end of a text with one more character. Behind a double colon no variable starts. -/
def Ending.next (colons : Nat) (ending : Ending) (c : Char) : Ending :=
  if c = '$' then if 2 ≤ colons then .other else .sigil
  else match ending with
    | .sigil => if isIdentifierStart c then .variable else .other
    | .variable => if isIdentifierChar c then .variable else .other
    | .other => .other

/-- Every access among the pieces of a text stands behind no open single quote, and directly behind
neither a sigil nor a variable. The pieces follow a text that ends as given, after `colons` colons;
`quoted` says whether it left a single quote open. -/
def apart (quoted : Bool) (colons : Nat) (ending : Ending) : List (Piece DottedPath) → Bool
  | [] => true
  | .literal _ :: pieces => apart quoted 0 .other pieces
  | .phrase _ :: pieces => !quoted && ending = .other && apart quoted 0 .other pieces
  | .char c :: pieces =>
    apart (quoted || c == '\'') ((Piece.char c : Piece DottedPath).colons colons)
      (ending.next colons c) pieces

/-- Every dotted access of an expression stands behind no open single quote, and directly behind
neither a sigil nor a variable. -/
def accessesApart (expression : String) : Bool :=
  apart false 0 .other (dottedAccess.pieces expression.toList)

/-- Fewer accesses are apart behind a sigil or a variable than behind anything else. -/
theorem apart_other {quoted : Bool} {colons : Nat} {ending : Ending}
    {pieces : List (Piece DottedPath)} (h : apart quoted colons ending pieces = true) :
    apart quoted colons .other pieces = true := by
  induction pieces generalizing quoted colons ending with
  | nil => rfl
  | cons p pieces ih =>
    match p with
    | .literal _ => exact h
    | .phrase _ =>
      rw [apart, Bool.and_eq_true, Bool.and_eq_true] at h ⊢
      exact ⟨⟨h.1.1, rfl⟩, h.2⟩
    | .char c =>
      rw [apart] at h ⊢
      have hnext : ending.next colons c = Ending.other.next colons c ∨
          Ending.other.next colons c = .other := by
        unfold Ending.next
        split
        · exact .inl rfl
        · exact .inr rfl
      rcases hnext with hnext | hnext
      · rwa [← hnext]
      · rw [hnext]
        exact ih h

/-- Behind an open single quote there is no access at all. -/
theorem not_phrase_of_quoted {colons : Nat} {ending : Ending} {pieces : List (Piece DottedPath)}
    (h : apart true colons ending pieces = true) : ∀ p ∈ pieces, p.phrase? = none := by
  induction pieces generalizing colons ending with
  | nil => exact fun _ hp => absurd hp List.not_mem_nil
  | cons p pieces ih =>
    match p with
    | .literal _ => exact List.forall_mem_cons.mpr ⟨rfl, ih h⟩
    | .phrase _ => simp [apart] at h
    | .char c => exact List.forall_mem_cons.mpr ⟨rfl, ih h⟩

/-! ## Accesses as they are read -/

/-- The segments of a path consist of characters of paths. -/
theorem isPathChar_of_mem_segments {cs : List Char} {c : Char} (h : c ∈ (segments cs).1) :
    isPathChar c := by
  have hword : ∀ {d : Char}, isWordChar d = true → isPathChar d := fun hd => by
    rw [isPathChar, hd]
    rfl
  fun_induction segments cs with
  | case1 => simp at h
  | case2 d ds hd found ih =>
    simp only [List.mem_cons, List.mem_append] at h
    rcases h with rfl | rfl | h | h
    · rfl
    · exact hword hd
    · exact hword (List.mem_takeWhile_imp h)
    · exact ih h
  | case3 => simp at h
  | case4 => simp at h

/-- A path that is read has the characters of paths. -/
theorem isPath_of_path? {cs path rest : List Char} (h : path? cs = some (path, rest)) :
    path ≠ [] ∧ ∀ c ∈ path, isPathChar c := by
  unfold path? at h
  split at h
  · simp at h
  · rename_i d path' rest' heq
    obtain ⟨rfl, rfl⟩ := Prod.mk.inj (Option.some.inj h)
    constructor
    · rintro rfl
      fun_cases segments cs with
      | case1 => simp [segments] at heq
      | case2 c cs hc => simp [segments, hc] at heq
      | case3 c cs hc => simp [segments, hc] at heq
      | case4 => simp_all [segments]
    · intro c hc
      have hmem : c ∈ (segments cs).1 := heq ▸ List.mem_cons_of_mem d hc
      exact isPathChar_of_mem_segments hmem

/-- An access that is read can be read as a call. -/
theorem readable_of_dotted? {colons : Nat} {cs : List Char} {a : DottedPath} {rest : List Char}
    (h : dotted? colons cs = some (a, rest)) : colons < 2 ∧ a.Readable := by
  unfold dotted? at h
  split at h
  · simp at h
  · rename_i hcolons
    obtain ⟨⟨name, cs₁⟩, hname, h⟩ := Option.bind_eq_some_iff.mp h
    obtain ⟨⟨path, cs₂⟩, hpath, h⟩ := Option.bind_eq_some_iff.mp h
    obtain ⟨rfl, rfl⟩ := Prod.mk.inj (Option.some.inj h)
    obtain ⟨hne, hchars⟩ := isPath_of_path? hpath
    exact ⟨Nat.lt_of_not_le hcolons, (isIdentifier_of_variableName? hname).1, hne, hchars⟩

/-! ## Pieces as they are read -/

/-- An access starts with a dollar sign. -/
theorem dotted?_eq_none {c : Char} (h : c ≠ '$') (colons : Nat) (cs : List Char) :
    dotted? colons (c :: cs) = none := by
  rw [dotted?, variableName?_eq_none h]
  exact ite_self none

/-- The accesses among the pieces of a text can be read as calls. -/
theorem readable_of_mem_pieces {colons : Nat} {cs : List Char} {a : DottedPath}
    (h : .phrase a ∈ dottedAccess.piecesFrom colons cs) : a.Readable := by
  fun_induction Phrase.piecesFrom dottedAccess colons cs with
  | case1 => simp at h
  | case2 colons cs piece rest hpiece ih =>
    rcases List.mem_cons.mp h with rfl | h
    · exact (readable_of_dotted? (read?_of_piece? hpiece)).2
    · exact ih h

/-- The characters of an identifier are pieces of their own. -/
theorem piecesFrom_identifier {x : List Char} (hx : ∀ c ∈ x, isIdentifierChar c)
    (rest : List Char) : dottedAccess.piecesFrom 0 (x ++ rest) =
      x.map .char ++ dottedAccess.piecesFrom 0 rest := by
  refine piecesFrom_append_plain (fun c hc => ?_) (fun _ => rfl) rest
  have hchar := hx c hc
  exact ⟨isQuote_of_isIdentifierChar hchar, ne_of_isIdentifierChar hchar (by decide),
    dotted?_eq_none (ne_of_isIdentifierChar hchar (by decide))⟩

/-! ## Literals behind an open quote -/

/-- A double quote that is not closed in a text is not closed in the text with calls. -/
theorem closes_spelled {pieces : List (Piece DottedPath)}
    (h : ∀ a, .phrase a ∈ pieces → a.Readable) (escaped : Bool) :
    closes '"' escaped (spelled pieces) =
      closes '"' escaped (pieces.flatMap (Piece.text DottedPath.dotted)) :=
  closes_flatMap_text (fun a ha => ⟨(h a ha).plain_call, (h a ha).plain_dotted⟩) escaped

/-! ## Mentions of accesses and of their calls -/

/-- What an access mentions, and what follows it. -/
theorem namesFrom_dotted {a : DottedPath} (h : a.Readable) {colons : Nat} (hcolons : colons < 2)
    (rest : List Char) : namesFrom colons (a.dotted ++ rest) = a.name :: namesFrom 0 rest := by
  have htext : a.dotted ++ rest = '$' :: (a.name ++ (('.' :: a.path) ++ rest)) := by
    rw [DottedPath.dotted, List.cons_append, List.append_assoc]
  have hpath : ∀ c ∈ '.' :: a.path, isQuote c = false ∧ c ≠ '$' ∧ c ≠ ':' := by
    refine List.forall_mem_cons.mpr ⟨by decide, fun c hc => ?_⟩
    have hchar := h.isPath c hc
    have hquotes : c ≠ '\'' ∧ c ≠ '"' :=
      ⟨ne_of_isPathChar hchar (by decide), ne_of_isPathChar hchar (by decide)⟩
    exact ⟨by simp [isQuote, hquotes], ne_of_isPathChar hchar (by decide),
      ne_of_isPathChar hchar (by decide)⟩
  have hstop : StopsAt isIdentifierChar (('.' :: a.path) ++ rest) := stopsAt_cons.mpr (by decide)
  rw [htext, namesFrom_variable hcolons h.isIdentifier hstop,
    namesFrom_append_plain hpath (List.cons_ne_nil _ _)]

/-- Where no access stands directly behind a text, the calls change nothing about what directly
follows it. -/
theorem head?_spelled {quoted : Bool} {colons : Nat} {ending : Ending} {cs : List Char}
    (hne : ending ≠ .other)
    (h : apart quoted colons ending (dottedAccess.piecesFrom colons cs) = true) :
    (spelled (dottedAccess.piecesFrom colons cs)).head? = cs.head? := by
  have htext := dottedAccess.text_piecesFrom colons cs
  revert h htext
  generalize dottedAccess.piecesFrom colons cs = pieces
  rintro h rfl
  match pieces with
  | [] => rfl
  | .literal _ :: _ => rfl
  | .char _ :: _ => rfl
  | .phrase _ :: _ =>
    rw [apart, Bool.and_eq_true, Bool.and_eq_true] at h
    exact absurd (of_decide_eq_true h.1.2) hne

/-- Pieces without accesses spell what they were cut from. -/
theorem spelled_of_not_phrase {pieces : List (Piece DottedPath)}
    (h : ∀ p ∈ pieces, p.phrase? = none) :
    spelled pieces = pieces.flatMap (Piece.text DottedPath.dotted) := by
  refine List.flatMap_congr fun p hp => ?_
  have hphrase := h p hp
  cases p with
  | phrase a => cases hphrase
  | literal | char => rfl

/-- A text without accesses is the same with calls. -/
theorem spelled_eq_self {colons : Nat} {cs : List Char}
    (h : ∀ p ∈ dottedAccess.piecesFrom colons cs, p.phrase? = none) :
    spelled (dottedAccess.piecesFrom colons cs) = cs :=
  (spelled_of_not_phrase h).trans (dottedAccess.text_piecesFrom colons cs)

/-- Behind an open single quote the text is the same. -/
theorem spelled_of_quoted {before colons : Nat} {ending : Ending} {cs : List Char}
    (h : apart true before ending (dottedAccess.piecesFrom colons cs) = true) :
    spelled (dottedAccess.piecesFrom colons cs) = cs :=
  spelled_eq_self (not_phrase_of_quoted h)

/-- A quote that opens no literal opens none in front of the calls, unless it is a single one. -/
theorem literal?_spelled {c : Char} {colons : Nat} {cs : List Char} (hsingle : c ≠ '\'')
    (h : literal? (c :: cs) = none) :
    literal? (c :: spelled (dottedAccess.piecesFrom colons cs)) = none := by
  cases hquote : isQuote c with
  | false => exact literal?_eq_none hquote _
  | true =>
    obtain rfl : c = '"' := by
      simpa [isQuote, hsingle] using hquote
    rw [literal?_eq_none_iff hquote] at h ⊢
    rw [closes_spelled fun a => readable_of_mem_pieces]
    exact (congrArg (closes '"' false) (dottedAccess.text_piecesFrom colons cs)).trans h

/-- No identifier is read exactly where none starts. -/
theorem identifier?_eq_none_iff {cs : List Char} :
    identifier? cs = none ↔ StopsAt isIdentifierStart cs := by
  cases cs with
  | nil => exact ⟨fun _ => stopsAt_nil _, fun _ => rfl⟩
  | cons c cs => simp [identifier?, stopsAt_cons]

/-- A character that starts no variable starts none in front of the calls, if the accesses are
apart. -/
theorem mention?_spelled {c : Char} {colons before : Nat} {cs : List Char}
    (h : mention? colons (c :: cs) = none)
    (hapart : apart false before (Ending.next colons .other c)
      (dottedAccess.piecesFrom before cs) = true) :
    mention? colons (c :: spelled (dottedAccess.piecesFrom before cs)) = none := by
  by_cases hcolons : 2 ≤ colons
  · rw [mention?, if_pos hcolons]
  rw [mention?, if_neg hcolons] at h ⊢
  by_cases hdollar : c = '$'
  · subst hdollar
    have hsigil : Ending.next colons .other '$' = .sigil := by
      rw [Ending.next, if_pos rfl, if_neg hcolons]
    rw [hsigil] at hapart
    have hstart : identifier? cs = none := h
    show identifier? _ = none
    rw [identifier?_eq_none_iff, StopsAt] at hstart ⊢
    rwa [head?_spelled (by decide) hapart]
  · exact variableName?_eq_none hdollar _

/-- A character of an identifier leaves the accesses behind it apart. -/
theorem apart_identifierChar {c : Char} (hc : isIdentifierChar c) {ending : Ending}
    {pieces : List (Piece DottedPath)} (h : apart false 0 ending (.char c :: pieces) = true) :
    apart false 0 (ending.next 0 c) pieces = true := by
  have hquote : (c == '\'') = false :=
    beq_eq_false_iff_ne.mpr (ne_of_isIdentifierChar hc (by decide))
  rwa [apart, hquote, colons_eq_zero (ne_of_isIdentifierChar hc (by decide))] at h

/-- Behind a variable that is no access, the accesses are apart from the variable. -/
theorem apart_variable {x : List Char} {colons : Nat} (hcolons : colons < 2) (hx : isIdentifier x)
    {pieces : List (Piece DottedPath)}
    (h : apart false colons .other (.char '$' :: (x.map .char ++ pieces)) = true) :
    apart false 0 .variable pieces = true := by
  have hdollar : ∀ {c : Char}, isIdentifierChar c = true → c ≠ '$' := fun hc =>
    ne_of_isIdentifierChar hc (by decide)
  have hrun : ∀ run : List Char, (∀ c ∈ run, isIdentifierChar c) →
      apart false 0 .variable (run.map .char ++ pieces) = true →
      apart false 0 .variable pieces = true := by
    intro run
    induction run with
    | nil => exact fun _ h => h
    | cons c run ih =>
      intro hchars h
      obtain ⟨hc, hchars⟩ := List.forall_mem_cons.mp hchars
      have hnext : Ending.next 0 .variable c = .variable := by
        rw [Ending.next, if_neg (hdollar hc)]
        exact if_pos hc
      have hrest := apart_identifierChar hc h
      rw [hnext] at hrest
      exact ih hchars hrest
  cases x with
  | nil => cases hx
  | cons d ds =>
    rw [isIdentifier, Bool.and_eq_true, List.all_eq_true] at hx
    have hsigil : Ending.next colons .other '$' = .sigil := by
      rw [Ending.next, if_pos rfl, if_neg (Nat.not_le.mpr hcolons)]
    have hchar := isIdentifierChar_of_start hx.1
    have hnext : Ending.next 0 .sigil d = .variable := by
      rw [Ending.next, if_neg (hdollar hchar)]
      exact if_pos hx.1
    rw [apart, hsigil, colons_eq_zero (by decide)] at h
    have hrest := apart_identifierChar hchar h
    rw [hnext] at hrest
    exact hrun ds hx.2 hrest

/-- A variable that is no access is mentioned in front of the calls too, if they do not continue
it. -/
theorem namesFrom_variable_spelled {x left : List Char} {colons : Nat} (hcolons : colons < 2)
    (hx : isIdentifier x) (hstop : StopsAt isIdentifierChar left)
    (h : apart false 0 .variable (dottedAccess.piecesFrom 0 left) = true) :
    namesFrom colons ('$' :: spelled (dottedAccess.piecesFrom 0 (x ++ left))) =
      x :: namesFrom 0 (spelled (dottedAccess.piecesFrom 0 left)) := by
  have hstop' : StopsAt isIdentifierChar (spelled (dottedAccess.piecesFrom 0 left)) := by
    rw [StopsAt, head?_spelled (by decide) h]
    exact hstop
  rw [piecesFrom_identifier (fun d => isIdentifierChar_of_mem hx) left, spelled_append,
    spelled_map_char, namesFrom_variable hcolons hx hstop']

/-- **Accesses that are apart can be written as calls**: the same variables are mentioned. -/
theorem namesFrom_spelled {colons : Nat} {cs : List Char}
    (h : apart false colons .other (dottedAccess.piecesFrom colons cs) = true) :
    namesFrom colons (spelled (dottedAccess.piecesFrom colons cs)) = namesFrom colons cs := by
  -- By induction on the length, since a variable takes more than one character away.
  induction hn : cs.length using Nat.strong_induction_on generalizing cs colons with
  | _ n ih =>
  subst hn
  cases hpiece : dottedAccess.piece? colons cs with
  | none =>
    obtain rfl := Phrase.eq_nil_of_piece?_eq_none hpiece
    rw [piecesFrom_eq, hpiece]
    rfl
  | some found =>
  obtain ⟨p, rest⟩ := found
  have hpieces : dottedAccess.piecesFrom colons cs =
      p :: dottedAccess.piecesFrom (p.colons colons) rest := piecesFrom_of_piece? hpiece
  have htext := Phrase.append_of_piece? hpiece
  have hlt := Phrase.length_lt_of_piece? hpiece
  rw [hpieces] at h ⊢
  rw [spelled_cons]
  match p with
  | .literal l =>
    have hliteral : literal? (l.text ++ rest) = some (l, rest) := by
      have hread := literal?_of_piece? hpiece
      rwa [← htext] at hread
    rw [← htext]
    refine (namesFrom_literal (literal?_append hliteral _) colons).trans ?_
    refine Eq.trans ?_ (namesFrom_literal hliteral colons).symm
    exact congrArg _ (ih rest.length hlt h rfl)
  | .phrase a =>
    obtain ⟨hcolons, ha⟩ := readable_of_dotted? (read?_of_piece? hpiece)
    rw [apart, Bool.and_eq_true] at h
    rw [← htext]
    refine (namesFrom_call ha colons _).trans ?_
    refine Eq.trans ?_ (namesFrom_dotted ha hcolons rest).symm
    exact congrArg _ (ih rest.length hlt h.2 rfl)
  | .char c =>
    obtain ⟨rfl, hliteral, hread⟩ := of_piece?_char hpiece
    show namesFrom colons (c :: spelled (dottedAccess.piecesFrom _ rest)) = _
    cases hmention : mention? colons (c :: rest) with
    | some found =>
      obtain ⟨x, left⟩ := found
      obtain ⟨hcolons, hx, hstop, heq⟩ := eq_of_mention? hmention
      obtain ⟨rfl, rfl⟩ := List.cons.inj heq
      rw [colons_eq_zero (by decide)] at h ⊢
      rw [piecesFrom_identifier (fun d => isIdentifierChar_of_mem hx) left] at h
      have hleft := apart_variable hcolons hx h
      rw [namesFrom_variable_spelled hcolons hx hstop hleft, namesFrom_variable hcolons hx hstop]
      refine congrArg _ (ih left.length ?_ (apart_other hleft) rfl)
      rw [List.length_cons, List.length_append]
      omega
    | none =>
      by_cases hsingle : c = '\''
      · -- Nothing behind the open quote is an access, so the text is the same.
        subst hsingle
        exact congrArg (fun t => namesFrom colons ('\'' :: t)) (spelled_of_quoted h)
      · have hquoted : (false || c == '\'') = false := by simpa using hsingle
        rw [apart, hquoted] at h
        rw [namesFrom_char (literal?_spelled hsingle hliteral) (mention?_spelled hmention h),
          namesFrom_char hliteral hmention, colons_char c colons]
        exact ih rest.length hlt (apart_other h) rfl

/-- **An expression mentions the same variables when its accesses are calls**, if they are
apart. -/
theorem mentioned_callAccesses {expression : String} (h : accessesApart expression = true) :
    mentioned (callAccesses expression) = mentioned expression := by
  have hnames : namesFrom 0 (spelled (dottedAccess.piecesFrom 0 expression.toList)) =
      namesFrom 0 expression.toList := namesFrom_spelled h
  have hcalls : callAccesses expression =
      String.ofList (spelled (dottedAccess.piecesFrom 0 expression.toList)) := rfl
  rw [hcalls, mentioned_ofList, hnames, ← mentioned_ofList, String.ofList_toList]

end ViewCompiler.Expression
