import ViewCompiler.Expression.Variables
import ViewCompiler.Proofs.Expression.Exchange

/-!
# Mentions of an expression with a call

An expression is searched for variables in another way than for calls. `Closed` says of a text that
no literal is open at its end, and what such a text mentions does not depend on what follows, as
long as its last character cannot start or go on with a variable (`exists_names_append`). So an
expression in which a call stands by itself mentions the variable of the call, and with another
variable in place of the call it mentions that variable at the same place and is the same elsewhere
(`exists_names_exchange`). A call need not stand by itself for its variable to be mentioned
(`name_mem_namesFrom`).
-/

namespace ViewCompiler.Expression

/-! ## Texts without an open literal -/

/-- Every quote in the text belongs to a literal that is closed in it. -/
inductive Closed : List Char → Prop where
  | nil : Closed []
  | char {c : Char} {cs : List Char} : isQuote c = false → Closed cs → Closed (c :: cs)
  | literal {l : Literal} {cs : List Char} :
      (∀ other, literal? (l.text ++ other) = some (l, other)) → Closed cs → Closed (l.text ++ cs)

/-- A text without quotes is closed. -/
theorem closed_of_forall {cs : List Char} (h : ∀ c ∈ cs, isQuote c = false) : Closed cs := by
  induction cs with
  | nil => exact .nil
  | cons c cs ih =>
    exact .char (h c List.mem_cons_self) (ih fun d hd => h d (List.mem_cons_of_mem c hd))

/-- A closed text behind a closed text is closed. -/
theorem Closed.append {cs ds : List Char} (h : Closed cs) (hds : Closed ds) :
    Closed (cs ++ ds) := by
  induction h with
  | nil => exact hds
  | char hc _ ih => exact .char hc ih
  | literal hl _ ih => rw [List.append_assoc]; exact .literal hl ih

/-- A closed text starts with another character than a quote, or with a literal. -/
theorem Closed.cases_cons {c : Char} {cs : List Char} (h : Closed (c :: cs)) :
    isQuote c = false ∧ Closed cs ∨
      ∃ l rest, c :: cs = l.text ++ rest ∧ Closed rest ∧
        ∀ other, literal? (l.text ++ other) = some (l, other) := by
  generalize htext : c :: cs = text at h
  cases h with
  | nil => simp at htext
  | char hc hcs =>
    obtain ⟨rfl, rfl⟩ := List.cons.inj htext
    exact .inl ⟨hc, hcs⟩
  | @literal l rest hl hrest => exact .inr ⟨l, rest, rfl, hrest, hl⟩

/-- What is left of a closed text behind characters that are no quotes is closed. -/
theorem Closed.of_append {cs ds : List Char} (h : Closed (cs ++ ds))
    (hcs : ∀ c ∈ cs, isQuote c = false) : Closed ds := by
  induction cs with
  | nil => exact h
  | cons c cs ih =>
    have hc := hcs c List.mem_cons_self
    have hrest : ∀ d ∈ cs, isQuote d = false := fun d hd => hcs d (List.mem_cons_of_mem c hd)
    rcases h.cases_cons with ⟨-, htail⟩ | ⟨l, rest, heq, -, hl⟩
    · exact ih htail hrest
    · have hread := hl rest
      rw [← heq, literal?_eq_none hc] at hread
      simp at hread

/-- The literal that ends a call. -/
def pathLiteral (path : List Char) : Literal := ⟨'\'', path⟩

/-- A path in quotes is a literal. -/
theorem literal?_pathLiteral {path : List Char} (h : ∀ c ∈ path, isPathChar c)
    (other : List Char) :
    literal? ((pathLiteral path).text ++ other) = some (pathLiteral path, other) := by
  have hclose : closeQuote? '\'' (path ++ '\'' :: other) = some (path, other) := by
    induction path with
    | nil => rw [List.nil_append, closeQuote?_cons (by decide)]; rfl
    | cons c path ih =>
      have hc := h c List.mem_cons_self
      have hback : c ≠ '\\' := ne_of_isPathChar hc (by decide)
      have hquote : (c == '\'') = false :=
        beq_eq_false_iff_ne.mpr (ne_of_isPathChar hc (by decide))
      rw [List.cons_append, closeQuote?_cons hback, hquote,
        ih fun d hd => h d (List.mem_cons_of_mem c hd)]
      rfl
  rw [Literal.text, List.cons_append, List.append_assoc, literal?, if_pos (by rfl)]
  rw [show (pathLiteral path).inside ++ ([(pathLiteral path).quote] ++ other) =
    path ++ '\'' :: other from rfl, show (pathLiteral path).quote = '\'' from rfl, hclose]
  rfl

/-- The end of a call, with its literal. -/
theorem callEnding_eq (path : List Char) :
    callEnding path = [',', ' '] ++ ((pathLiteral path).text ++ [')']) := by
  simp [callEnding, pathLiteral, Literal.text]

/-- A call is closed. -/
theorem closed_call {a : DottedPath} (h : a.Readable) : Closed a.call := by
  have hname : Closed a.name :=
    closed_of_forall fun c hc =>
      isQuote_of_isIdentifierChar (isIdentifierChar_of_mem h.isIdentifier hc)
  have hending : Closed (callEnding a.path) := by
    rw [callEnding_eq]
    exact (closed_of_forall (forall_mem_of_all rfl)).append
      (.literal (literal?_pathLiteral h.isPath) (closed_of_forall (forall_mem_of_all rfl)))
  rw [call_eq]
  exact (closed_of_forall (forall_mem_of_all rfl)).append
    (.char (by decide) (hname.append hending))

/-- The pieces of a cut in front of a call, without lone quotes, spell a closed text. -/
theorem IsCut.closed {before after : List CallPiece} (h : IsCut (before ++ after))
    (hquote : NoLoneQuote before) : Closed (spelled before) := by
  induction before with
  | nil => exact .nil
  | cons p before ih =>
    rw [List.cons_append, isCut_cons] at h
    have hbefore := ih h.2 fun c hc => hquote c (List.mem_cons_of_mem p hc)
    rw [spelled_cons]
    cases p with
    | literal l =>
      exact .literal (fun other => literal?_of_cutsOff (cutsOff_literal h.1 other)) hbefore
    | phrase a => exact (closed_call (cutsOff_phrase.mp h.1)).append hbefore
    | char c => exact .char (hquote c List.mem_cons_self) hbefore

/-! ## Names in order -/

/-- The names that a text mentions which follows `colons` colons. -/
def namesFrom (colons : Nat) (cs : List Char) : List (List Char) :=
  (mention.piecesFrom colons cs).flatMap Piece.names

/-- The mentions of an expression are the names in it. -/
theorem mentioned_ofList (cs : List Char) :
    mentioned (String.ofList cs) = (namesFrom 0 cs).map String.ofList := by
  rw [mentioned, String.toList_ofList]
  rfl

/-- The names of a text are those of its first piece and those of the rest. -/
theorem namesFrom_of_piece? {colons : Nat} {cs rest : List Char} {p : Piece (List Char)}
    (h : mention.piece? colons cs = some (p, rest)) :
    namesFrom colons cs = p.names ++ namesFrom (p.colons colons) rest := by
  rw [namesFrom, piecesFrom_of_piece? h]
  rfl

/-- Nothing mentions nothing. -/
theorem namesFrom_nil (colons : Nat) : namesFrom colons [] = [] := by
  rw [namesFrom, piecesFrom_eq]
  rfl

/-- A literal and what follows it. -/
theorem namesFrom_literal {l : Literal} {rest : List Char}
    (h : literal? (l.text ++ rest) = some (l, rest)) (colons : Nat) :
    namesFrom colons (l.text ++ rest) = (Piece.literal l).names ++ namesFrom 0 rest :=
  namesFrom_of_piece? (piece?_literal h)

/-- A character that starts neither a literal nor a variable, and what follows it. -/
theorem namesFrom_char {c : Char} {cs : List Char} {colons : Nat}
    (hliteral : literal? (c :: cs) = none) (h : mention? colons (c :: cs) = none) :
    namesFrom colons (c :: cs) =
      namesFrom ((Piece.char c : Piece (List Char)).colons colons) cs :=
  namesFrom_of_piece? (piece?_char hliteral h)

/-- A variable is found behind fewer than two colons, with its whole name. -/
theorem eq_of_mention? {colons : Nat} {cs x tail : List Char}
    (h : mention? colons cs = some (x, tail)) :
    colons < 2 ∧ isIdentifier x ∧ StopsAt isIdentifierChar tail ∧ cs = '$' :: (x ++ tail) := by
  unfold mention? at h
  split at h
  · cases h
  · rename_i hcolons
    obtain ⟨hx, htail⟩ := isIdentifier_of_variableName? h
    exact ⟨by omega, hx, htail, (append_of_variableName? h).symm⟩

/-- A variable and what follows it. -/
theorem namesFrom_variable {x rest : List Char} {colons : Nat} (hcolons : colons < 2)
    (hx : isIdentifier x) (hrest : StopsAt isIdentifierChar rest) :
    namesFrom colons ('$' :: (x ++ rest)) = x :: namesFrom 0 rest := by
  have hread : mention.read? colons ('$' :: (x ++ rest)) = some (x, rest) := by
    show mention? colons _ = _
    rw [mention?, if_neg (Nat.not_le.mpr hcolons), variableName?_append hx hrest]
  exact namesFrom_of_piece? (piece?_phrase (literal?_eq_none (by decide) _) hread)

/-- Only a sigil starts a mention. -/
theorem mention?_eq_none {c : Char} (h : c ≠ '$') (colons : Nat) (cs : List Char) :
    mention? colons (c :: cs) = none := by
  rw [mention?, variableName?_eq_none h, ite_self]

/-- Characters that have nothing to do with variables, and what follows them. -/
theorem namesFrom_append_plain {run : List Char}
    (hrun : ∀ c ∈ run, isQuote c = false ∧ c ≠ '$' ∧ c ≠ ':') (hne : run ≠ []) (colons : Nat)
    (cs : List Char) : namesFrom colons (run ++ cs) = namesFrom 0 cs := by
  have hnames : (run.map Piece.char).flatMap Piece.names = [] := by
    simp [List.flatMap_eq_nil_iff, Piece.names]
  rw [namesFrom, piecesFrom_append_plain (fun c hc => ?_) (absurd · hne), List.flatMap_append,
    hnames, List.nil_append, namesFrom]
  obtain ⟨hquote, hdollar, hcolon⟩ := hrun c hc
  exact ⟨hquote, hcolon, mention?_eq_none hdollar⟩

/-- What a call mentions, and what follows it. -/
theorem namesFrom_call {a : DottedPath} (h : a.Readable) (colons : Nat) (rest : List Char) :
    namesFrom colons (a.call ++ rest) = a.name :: namesFrom 0 rest := by
  have hstop : StopsAt isIdentifierChar (callEnding a.path ++ rest) :=
    stopsAt_cons.mpr (by decide)
  have htext : a.call ++ rest = callOpening ++ '$' :: (a.name ++ (callEnding a.path ++ rest)) := by
    rw [call_eq]
    simp
  have hending : namesFrom 0 (callEnding a.path ++ rest) = namesFrom 0 rest := by
    rw [callEnding_eq, List.append_assoc, List.append_assoc,
      namesFrom_append_plain (forall_mem_of_all rfl) (by decide),
      namesFrom_literal (literal?_pathLiteral h.isPath _),
      namesFrom_append_plain (forall_mem_of_all rfl) (by decide)]
    rfl
  rw [htext, namesFrom_append_plain (forall_mem_of_all rfl) (by decide),
    namesFrom_variable (by decide) h.isIdentifier hstop, hending]

/-! ## Names before and behind a place -/

/-- The last character of a text cannot start a variable or go on with one. -/
def EndsVariables (cs : List Char) : Prop :=
  ∀ c ∈ cs.getLast?, isIdentifierChar c = false ∧ c ≠ '$'

/-- What is left at the end of a text has the text's last character. -/
theorem EndsVariables.of_append {cs ds : List Char} (h : EndsVariables (cs ++ ds)) :
    EndsVariables ds := by
  cases ds with
  | nil => simp [EndsVariables]
  | cons d ds =>
    intro c hc
    refine h c ?_
    rwa [List.getLast?_append_of_ne_nil _ (List.cons_ne_nil _ _)]

/-- Only a text that ends with a double colon, alone or with the colons before it, leaves two
colons. -/
def ColonsLeft (before : Nat) (cs : List Char) (left : Nat) : Prop :=
  2 ≤ left → 2 ≤ before ∧ cs = [] ∨ 1 ≤ before ∧ cs = [':'] ∨ [':', ':'] <:+ cs

/-- The colons that a text leaves, from those that its rest behind a first part leaves. -/
theorem ColonsLeft.append {cs ds : List Char} {before left : Nat} (h : ColonsLeft 0 ds left) :
    ColonsLeft before (cs ++ ds) left := by
  intro hleft
  rcases h hleft with ⟨h0, -⟩ | ⟨h1, -⟩ | hsuffix
  · omega
  · omega
  · exact .inr (.inr (List.suffix_append_of_suffix hsuffix))

/-- The colons that a text leaves, from those that its rest behind a first character leaves. -/
theorem ColonsLeft.cons {c : Char} {cs : List Char} {before left : Nat}
    (h : ColonsLeft ((Piece.char c : Piece (List Char)).colons before) cs left) :
    ColonsLeft before (c :: cs) left := by
  by_cases hc : c = ':'
  · subst hc
    intro hleft
    rcases h hleft with ⟨hbefore, rfl⟩ | ⟨-, rfl⟩ | hsuffix
    · rw [Piece.colons] at hbefore
      exact .inr (.inl ⟨by omega, rfl⟩)
    · exact .inr (.inr (List.suffix_refl _))
    · exact .inr (.inr (hsuffix.trans (List.suffix_cons _ _)))
  · rw [colons_eq_zero hc] at h
    rw [← List.singleton_append]
    exact h.append

/-- Where no variable starts in such a text, none starts in front of any other text. -/
theorem EndsVariables.mention?_eq_none {c : Char} {cs : List Char}
    (hlast : EndsVariables (c :: cs))
    {colons : Nat} (h : mention? colons (c :: cs) = none) (rest : List Char) :
    mention? colons (c :: (cs ++ rest)) = none := by
  by_cases hcolons : 2 ≤ colons
  · rw [mention?, if_pos hcolons]
  rw [mention?, if_neg hcolons] at h ⊢
  by_cases hc : c = '$'
  · subst hc
    cases cs with
    | nil => exact absurd rfl (hlast '$' rfl).2
    | cons d ds =>
      simp only [variableName?, identifier?, List.cons_append] at h ⊢
      split at h
      · simp at h
      · simp_all
  · exact variableName?_eq_none hc _

/-- A variable that starts such a text ends before the text does. -/
theorem EndsVariables.exists_of_mention? {cs : List Char} (hlast : EndsVariables cs)
    {colons : Nat} {x rest : List Char} (h : mention? colons cs = some (x, rest)) :
    colons < 2 ∧ isIdentifier x ∧ cs = ('$' :: x) ++ rest ∧
      ∀ other, StopsAt isIdentifierChar (rest ++ other) := by
  obtain ⟨hcolons, hx, hstop, htext⟩ := eq_of_mention? h
  rw [← List.cons_append] at htext
  refine ⟨hcolons, hx, htext, fun other => ?_⟩
  cases rest with
  | cons e es => exact stopsAt_cons.mpr (stopsAt_cons.mp hstop)
  | nil =>
    rw [htext, List.append_nil] at hlast
    have hd := List.getLast?_eq_some_getLast (List.cons_ne_nil '$' x)
    rcases List.mem_cons.mp (List.mem_of_getLast? hd) with heq | hmem
    · exact absurd heq (hlast _ hd).2
    · exact absurd (isIdentifierChar_of_mem hx hmem) (by rw [(hlast _ hd).1]; decide)

/-- **What a closed text mentions does not depend on what follows it**, if its last character
cannot start or go on with a variable. -/
theorem exists_names_append {u : List Char} (h : Closed u) (hlast : EndsVariables u)
    (colons : Nat) : ∃ names left, ColonsLeft colons u left ∧
      ∀ rest, namesFrom colons (u ++ rest) = names ++ namesFrom left rest := by
  -- By induction on the length, since a variable takes more than one character away.
  induction hn : u.length using Nat.strong_induction_on generalizing u colons with
  | _ n ih =>
  subst hn
  cases u with
  | nil => exact ⟨[], colons, fun hc => .inl ⟨hc, rfl⟩, fun _ => rfl⟩
  | cons c cs =>
  rcases h.cases_cons with ⟨hquote, hcs⟩ | ⟨l, rest, heq, hrest, hl⟩
  · cases hmention : mention? colons (c :: cs) with
    | none =>
      have hlast' : EndsVariables ([c] ++ cs) := hlast
      obtain ⟨names, left, hleft, happend⟩ := ih cs.length (by simp) hcs hlast'.of_append
        ((Piece.char c : Piece (List Char)).colons colons) rfl
      refine ⟨names, left, hleft.cons, fun rest => ?_⟩
      rw [List.cons_append, namesFrom_char (literal?_eq_none hquote _)
        (hlast.mention?_eq_none hmention rest), happend]
    | some found =>
      obtain ⟨x, rest⟩ := found
      obtain ⟨hcolons, hx, htext, hstop⟩ := hlast.exists_of_mention? hmention
      have hxs : ∀ d ∈ '$' :: x, isQuote d = false := by
        intro d hd
        rcases List.mem_cons.mp hd with rfl | hd
        · rfl
        · exact isQuote_of_isIdentifierChar (isIdentifierChar_of_mem hx hd)
      rw [htext] at h hlast ih ⊢
      obtain ⟨names, left, hleft, happend⟩ := ih rest.length
        (by rw [List.length_append, List.length_cons]; omega) (h.of_append hxs) hlast.of_append
          0 rfl
      refine ⟨x :: names, left, hleft.append, fun other => ?_⟩
      rw [List.append_assoc, List.cons_append, namesFrom_variable hcolons hx (hstop other),
        happend]
      rfl
  · rw [heq] at hlast ih ⊢
    obtain ⟨names, left, hleft, happend⟩ := ih rest.length
      (by rw [Literal.text, List.length_append, List.length_cons]; omega) hrest hlast.of_append
        0 rfl
    refine ⟨(Piece.literal l).names ++ names, left, hleft.append, fun other => ?_⟩
    rw [List.append_assoc, namesFrom_literal (hl _), happend, List.append_assoc]

/-- **An expression mentions the variable of a call that stands by itself**, and with another
variable in place of the call it mentions that one at the same place and is the same elsewhere. -/
theorem exists_names_exchange {before : List CallPiece} {a : DottedPath}
    {after : List CallPiece} (h : IsCut (before ++ .phrase a :: after)) {rest : List Char}
    (halone : StandsAlone before rest) :
    ∃ left right, namesFrom 0 (spelled before ++ (a.call ++ rest)) = left ++ a.name :: right ∧
      ∀ x, isIdentifier x →
        namesFrom 0 (spelled before ++ '$' :: (x ++ rest)) = left ++ x :: right := by
  have hlast : EndsVariables (spelled before) := fun c hc =>
    ⟨(halone.notGlued c hc).1, (halone.notGlued c hc).2.1⟩
  obtain ⟨left, colons, hleft, happend⟩ :=
    exists_names_append (h.closed halone.noLoneQuote) hlast 0
  have hcolons : colons < 2 := by
    by_contra hge
    rcases hleft (by omega) with ⟨h0, -⟩ | ⟨h1, -⟩ | hsuffix
    · omega
    · omega
    · exact halone.notStatic hsuffix
  refine ⟨left, namesFrom 0 rest, ?_, fun x hx => ?_⟩
  · rw [happend, namesFrom_call h.readable]
  · rw [happend, namesFrom_variable hcolons hx halone.stops]

/-! ## The variables of calls -/

/-- Behind a character that starts neither a literal nor a call stand the other pieces. -/
theorem pieces_char {c : Char} {cs : List Char} (hliteral : literal? (c :: cs) = none)
    (hcall : accessor? (c :: cs) = none) :
    accessor.pieces (c :: cs) = .char c :: accessor.pieces cs :=
  pieces_eq_cons (cutsOff_char.mpr ⟨hliteral, hcall⟩)

/-- Behind a call stand the other pieces. -/
theorem pieces_append_call {a : DottedPath} (h : a.Readable) (rest : List Char) :
    accessor.pieces (a.call ++ rest) = .phrase a :: accessor.pieces rest :=
  pieces_eq_cons (cutsOff_phrase.mpr h)

/-- A call is cut into itself. -/
theorem pieces_call {a : DottedPath} (h : a.Readable) : accessor.pieces a.call = [.phrase a] := by
  have hnil : accessor.pieces [] = [] := isCut_nil
  have hcall := pieces_append_call h []
  rwa [List.append_nil, hnil] at hcall

/-- Every call behind a variable mentions its variable, also one whose function's name is the end
of the variable's name. -/
theorem name_mem_of_identifier {u rest : List Char} (hu : ∀ c ∈ u, isIdentifierChar c)
    (hstop : StopsAt isIdentifierChar rest)
    (hrest : ∀ cs : List Char, cs.length ≤ rest.length → ∀ a, .phrase a ∈ accessor.pieces cs →
      a.name ∈ namesFrom 0 cs) {a : DottedPath} (ha : .phrase a ∈ accessor.pieces (u ++ rest)) :
    a.name ∈ namesFrom 0 rest := by
  induction u with
  | nil => exact hrest rest (Nat.le_refl _) a ha
  | cons c u ih =>
    cases hcall : accessor? (c :: u ++ rest) with
    | none =>
      have hquote := isQuote_of_isIdentifierChar (hu c List.mem_cons_self)
      rw [List.cons_append] at ha hcall
      rw [pieces_char (literal?_eq_none hquote _) hcall] at ha
      exact ih (fun d hd => hu d (List.mem_cons_of_mem c hd))
        ((List.mem_cons.mp ha).resolve_left (by simp))
    | some found =>
      obtain ⟨b, left⟩ := found
      have hname : c :: u = functionName := by
        by_contra hne
        rw [accessor?_append_name hu hstop fun heq => absurd heq hne] at hcall
        cases hcall
      obtain ⟨hb, htext⟩ := accessor?_eq_some_iff.mp hcall
      -- What is left behind the variable mentions what the call mentions.
      have hnames : namesFrom 0 rest = b.name :: namesFrom 0 left := by
        rw [← namesFrom_call hb 0 left, htext, hname,
          namesFrom_append_plain (forall_mem_of_all rfl) (by decide)]
      have hshort : left.length ≤ rest.length := by
        have hlength := congrArg List.length htext
        rw [hname, call_eq] at hlength
        simp only [List.length_append, List.length_cons, callOpening, functionName] at hlength
        omega
      rw [← htext, pieces_append_call hb] at ha
      rw [hnames]
      rcases List.mem_cons.mp ha with heq | ha
      · obtain rfl := Piece.phrase.inj heq
        exact List.mem_cons_self
      · exact List.mem_cons_of_mem _ (hrest left hshort a ha)

/-- **An expression mentions the variable of each of its calls.** -/
theorem name_mem_namesFrom {cs : List Char} {a : DottedPath} (h : .phrase a ∈ accessor.pieces cs)
    (colons : Nat) : a.name ∈ namesFrom colons cs := by
  -- By induction on the length: a variable may take the start of a call away, but not its dollar.
  induction hn : cs.length using Nat.strong_induction_on generalizing cs a colons with
  | _ n ih =>
  subst hn
  cases cs with
  | nil =>
    have hnil : accessor.pieces [] = [] := isCut_nil
    rw [hnil] at h
    cases h
  | cons c cs =>
  cases hliteral : literal? (c :: cs) with
  | some found =>
    obtain ⟨l, rest⟩ := found
    have hpiece : accessor.piece? 0 (c :: cs) = some (.literal l, rest) := piece?_literal hliteral
    have htext : l.text ++ rest = c :: cs := append_of_literal? hliteral
    rw [pieces_eq_cons hpiece] at h
    have hmem := ih rest.length (Phrase.length_lt_of_piece? hpiece)
      ((List.mem_cons.mp h).resolve_left (by simp)) 0 rfl
    rw [← htext, namesFrom_literal (htext ▸ hliteral)]
    exact List.mem_append_right _ hmem
  | none =>
  cases hcall : accessor? (c :: cs) with
  | some found =>
    obtain ⟨b, rest⟩ := found
    obtain ⟨hb, htext⟩ := accessor?_eq_some_iff.mp hcall
    have hshort : rest.length < (c :: cs).length := by
      rw [← htext, call_eq, List.length_append]
      simp [callOpening]
    rw [← htext, pieces_append_call hb] at h
    rw [← htext, namesFrom_call hb]
    rcases List.mem_cons.mp h with heq | h
    · obtain rfl := Piece.phrase.inj heq
      exact List.mem_cons_self
    · exact List.mem_cons_of_mem _ (ih rest.length hshort h 0 rfl)
  | none =>
  rw [pieces_char hliteral hcall] at h
  have htail := (List.mem_cons.mp h).resolve_left (by simp)
  cases hmention : mention? colons (c :: cs) with
  | none =>
    rw [namesFrom_char hliteral hmention]
    exact ih cs.length (by simp) htail _ rfl
  | some found =>
    obtain ⟨x, rest⟩ := found
    obtain ⟨hcolons, hx, hstop, heq⟩ := eq_of_mention? hmention
    obtain ⟨rfl, rfl⟩ := List.cons.inj heq
    rw [namesFrom_variable hcolons hx hstop]
    refine List.mem_cons_of_mem x
      (name_mem_of_identifier (fun _ => isIdentifierChar_of_mem hx) hstop
      (fun ds hds b hb => ih ds.length ?_ hb 0 rfl) htail)
    simp only [List.length_cons, List.length_append]
    omega

end ViewCompiler.Expression
