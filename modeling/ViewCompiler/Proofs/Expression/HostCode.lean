import Mathlib.Data.List.Infix
import ViewCompiler.Proofs.Expression.Mentions
import ViewCompiler.Proofs.Expression.Reference
import ViewCompiler.Proofs.Text.Cut

/-!
# Variables of host code

Host code is searched for variables like an expression, but it has comments, of which the search
knows nothing. `InCode before rest` tells without the search at which places the code is neither in
a comment nor in a string, and `Shows` which variables stand there or are interpolated in a
double-quoted string. The search comes to each of these places between two of its pieces or in the
name of a variable (`Reached`), as long as it takes no string to start in a comment and to end
behind it. So it finds every variable that the code shows (`mem_mentioned_of_shows`).
-/

namespace ViewCompiler.Expression

open Text (FirstMark)

/-! ## Host code, read from left to right -/

/-- The character ends a line, and a comment of one line with it. -/
def isLineEnd (c : Char) : Bool := c == '\n' || c == '\r'

/-- A comment starts here. A `#` in front of a bracket opens an attribute instead. -/
def OpensComment (cs : List Char) : Prop :=
  ['/', '/'] <+: cs ∨ ['/', '*'] <+: cs ∨ ['#'] <+: cs ∧ ¬ ['#', '['] <+: cs

instance (cs : List Char) : Decidable (OpensComment cs) :=
  inferInstanceAs (Decidable (_ ∨ _ ∨ _ ∧ ¬ _))

/-- The text is a whole comment in front of the rest. -/
inductive IsComment : (comment rest : List Char) → Prop where
  /-- A comment that goes on to the end of its line. -/
  | line {comment rest : List Char} (hopens : OpensComment (comment ++ rest))
      (hblock : ¬ ['/', '*'] <+: comment ++ rest) (hline : ∀ c ∈ comment, isLineEnd c = false)
      (hrest : ∀ c ∈ rest.head?, isLineEnd c = true) : IsComment comment rest
  /-- A comment that goes on to the first closing mark. -/
  | block {inside rest : List Char} (hinside : FirstMark (fun _ => false) ['*', '/'] inside) :
      IsComment ('/' :: '*' :: (inside ++ ['*', '/'])) rest
  /-- A comment without a closing mark, which goes on to the end. -/
  | unclosed {inside : List Char} (hinside : ¬ ['*', '/'] <:+: inside) :
      IsComment ('/' :: '*' :: inside) []

/-- The place between the two parts is in the code, outside comments and strings. A string goes on
to its first quote that is not escaped. -/
inductive InCode : (before rest : List Char) → Prop where
  | start (text : List Char) : InCode [] text
  | char {before rest : List Char} {c : Char} (h : InCode before (c :: rest))
      (hquote : isQuote c = false) (hopens : ¬ OpensComment (c :: rest)) :
      InCode (before ++ [c]) rest
  | comment {before comment rest : List Char} (h : InCode before (comment ++ rest))
      (hcomment : IsComment comment rest) : InCode (before ++ comment) rest
  | string {before rest : List Char} {l : Literal} (h : InCode before (l.text ++ rest))
      (hl : l.IsTerminated) : InCode (before ++ l.text) rest

/-- The code shows the variable: outside comments and strings and not directly behind a double
colon, or in a double-quoted string, where its `$` is not escaped. -/
inductive Shows (text name : List Char) : Prop where
  | code {before after : List Char} (htext : text = before ++ '$' :: (name ++ after))
      (hcode : InCode before ('$' :: (name ++ after))) (hname : isIdentifier name)
      (hafter : StopsAt isIdentifierChar after) (hcolons : ¬ [':', ':'] <:+ before)
  | interpolated {before after front back : List Char} {l : Literal}
      (htext : text = before ++ (l.text ++ after)) (hcode : InCode before (l.text ++ after))
      (hl : l.IsTerminated) (hquote : l.quote = '"')
      (hinside : l.inside = front ++ '$' :: (name ++ back)) (hfront : Inside '"' front)
      (hname : isIdentifier name) (hback : StopsAt isIdentifierChar back)

/-- Each quote of a comment, from left to right, is closed in the comment or nowhere. -/
inductive KeepsQuotes (after : List Char) : (comment : List Char) → Prop where
  | nil : KeepsQuotes after []
  | char {c : Char} {comment : List Char} (hopen : NoLiteral (c :: (comment ++ after)))
      (h : KeepsQuotes after comment) : KeepsQuotes after (c :: comment)
  | literal {l : Literal} {comment : List Char} (hl : l.IsTerminated)
      (h : KeepsQuotes after comment) : KeepsQuotes after (l.text ++ comment)

/-- No quote of a comment is closed behind the comment. -/
def CommentsKeepQuotes (text : List Char) : Prop :=
  ∀ before comment after, text = before ++ (comment ++ after) → InCode before (comment ++ after) →
    IsComment comment after → KeepsQuotes after comment

/-- A character that is no quote starts no literal. -/
theorem noLiteral_of_isQuote {c : Char} (h : isQuote c = false) (cs : List Char) :
    NoLiteral (c :: cs) := literal?_eq_none_iff_forall.mp (literal?_eq_none h cs)

/-- At its start a comment opens. -/
theorem IsComment.opens {comment rest : List Char} (h : IsComment comment rest) :
    OpensComment (comment ++ rest) := by
  cases h with
  | line hopens => exact hopens
  | block => exact .inr (.inl (List.prefix_append ['/', '*'] _))
  | unclosed => exact .inr (.inl (List.prefix_append ['/', '*'] _))

/-- A comment keeps its quotes if none of them opens a literal. -/
theorem keepsQuotes_of_forall {comment after : List Char}
    (h : ∀ cs, cs ≠ [] → cs <:+ comment → NoLiteral (cs ++ after)) :
    KeepsQuotes after comment := by
  induction comment with
  | nil => exact .nil
  | cons c comment ih =>
    exact .char (h _ (List.cons_ne_nil c comment) (List.suffix_refl _))
      (ih fun cs hne hcs => h cs hne (hcs.trans (List.suffix_cons c comment)))

/-- The comments of a text keep their quotes if no quote opens a literal behind the start of a
comment. -/
theorem commentsKeepQuotes_of_forall {text : List Char}
    (h : ∀ rest ∈ text.tails, OpensComment rest → ∀ cs ∈ rest.tails, (literal? cs).isNone) :
    CommentsKeepQuotes text := by
  intro before comment after htext _ hcomment
  refine keepsQuotes_of_forall fun cs _ hcs => literal?_eq_none_iff_forall.mp ?_
  obtain ⟨front, rfl⟩ := hcs
  refine Option.isNone_iff_eq_none.mp (h _ ?_ hcomment.opens _ ?_)
  · exact (List.mem_tails _ _).mpr ⟨before, htext.symm⟩
  · exact (List.mem_tails _ _).mpr ⟨front, (List.append_assoc ..).symm⟩

/-- Characters that neither quote nor open a comment are code. -/
theorem InCode.append_plain {before rest : List Char} (run : List Char)
    (h : InCode before (run ++ rest)) (hrun : ∀ c ∈ run, isQuote c = false ∧ c ≠ '/' ∧ c ≠ '#') :
    InCode (before ++ run) rest := by
  induction run generalizing before with
  | nil => rwa [List.append_nil]
  | cons c run ih =>
    obtain ⟨⟨hquote, hslash, hhash⟩, hrun⟩ := List.forall_mem_cons.mp hrun
    have hopens : ¬ OpensComment (c :: (run ++ rest)) := by
      rintro (h | h | ⟨h, -⟩)
      · exact hslash (List.cons_prefix_cons.mp h).1.symm
      · exact hslash (List.cons_prefix_cons.mp h).1.symm
      · exact hhash (List.cons_prefix_cons.mp h).1.symm
    rw [← List.singleton_append, ← List.append_assoc]
    exact ih (h.char hquote hopens) hrun

/-! ## The search -/

/-- How the search comes to a place: between two of its pieces, with the colons it has counted, or
in the name of a variable that it has found. -/
inductive Reached (before rest : List Char) : Prop where
  | between (names : List (List Char)) (colons : Nat)
      (hcolons : List.replicate colons ':' <:+ before)
      (hnames : namesFrom 0 (before ++ rest) = names ++ namesFrom colons rest)
  | inName (names : List (List Char)) {c : Char} {cs tail : List Char}
      (hrest : rest = c :: cs ++ tail) (hcs : ∀ d ∈ c :: cs, isIdentifierChar d)
      (hnames : namesFrom 0 (before ++ rest) = names ++ namesFrom 0 tail)

namespace Reached

variable {before rest : List Char}

/-- The search comes to a place in a name, or between two pieces if the name ends there. -/
theorem of_name (names : List (List Char)) {run tail : List Char} (hrest : rest = run ++ tail)
    (hrun : ∀ c ∈ run, isIdentifierChar c)
    (hnames : namesFrom 0 (before ++ rest) = names ++ namesFrom 0 tail) : Reached before rest := by
  subst hrest
  cases run with
  | nil => exact .between names 0 List.nil_suffix hnames
  | cons c cs => exact .inName names rfl hrun hnames

/-- The search comes between two pieces to what cannot go on with a name. -/
theorem exists_names (h : Reached before rest) (hrest : StopsAt isIdentifierChar rest) :
    ∃ names colons, List.replicate colons ':' <:+ before ∧
      namesFrom 0 (before ++ rest) = names ++ namesFrom colons rest := by
  cases h with
  | between names colons hcolons hnames => exact ⟨names, colons, hcolons, hnames⟩
  | @inName names c cs tail heq hcs hnames =>
    rw [heq, List.cons_append, stopsAt_cons, hcs c List.mem_cons_self] at hrest
    cases hrest

/-- From a character that starts no literal the search comes to the next one. -/
theorem char {c : Char} (h : Reached before (c :: rest)) (hliteral : NoLiteral (c :: rest)) :
    Reached (before ++ [c]) rest := by
  have hsplit : before ++ c :: rest = before ++ [c] ++ rest := by simp
  cases h with
  | between names colons hcolons hnames =>
    rw [hsplit] at hnames
    cases hmention : mention? colons (c :: rest) with
    | none =>
      rw [namesFrom_char (literal?_eq_none_iff_forall.mpr hliteral) hmention,
        colons_char_eq] at hnames
      refine .between names _ ?_ hnames
      split
      · rename_i hc
        obtain ⟨front, rfl⟩ := hcolons
        exact ⟨front, by simp [hc, List.replicate_succ']⟩
      · exact List.nil_suffix
    | some found =>
      obtain ⟨x, tail⟩ := found
      obtain ⟨hlt, hx, htail, heq⟩ := eq_of_mention? hmention
      rw [heq, namesFrom_variable hlt hx htail] at hnames
      refine .of_name (names ++ [x]) (List.cons.inj heq).2 (fun _ => isIdentifierChar_of_mem hx) ?_
      rw [hnames, List.append_assoc, List.singleton_append]
  | inName names heq hcs hnames =>
    obtain ⟨rfl, rfl⟩ := List.cons.inj heq
    rw [hsplit] at hnames
    exact .of_name names rfl (fun d hd => hcs d (List.mem_cons_of_mem c hd)) hnames

/-- In front of a string the search comes between two pieces. -/
theorem exists_names_string {l : Literal} (h : Reached before (l.text ++ rest))
    (hl : l.IsTerminated) :
    ∃ names, namesFrom 0 (before ++ (l.text ++ rest)) =
      names ++ ((Piece.literal l).names ++ namesFrom 0 rest) := by
  have hstop : StopsAt isIdentifierChar (l.text ++ rest) := by
    rw [Literal.text, List.cons_append, stopsAt_cons, Bool.eq_false_iff]
    intro hchar
    exact absurd (hl.isQuote.symm.trans (isQuote_of_isIdentifierChar hchar)) (by decide)
  obtain ⟨names, colons, -, hnames⟩ := h.exists_names hstop
  exact ⟨names, by rw [hnames, namesFrom_literal (literal?_eq_some_iff.mpr ⟨hl, rfl⟩)]⟩

/-- From the start of a string the search comes to its end. -/
theorem string {l : Literal} (h : Reached before (l.text ++ rest)) (hl : l.IsTerminated) :
    Reached (before ++ l.text) rest := by
  obtain ⟨names, hnames⟩ := h.exists_names_string hl
  rw [← List.append_assoc, ← List.append_assoc] at hnames
  exact .between _ 0 List.nil_suffix hnames

/-- From the start of a comment whose quotes are closed in it or nowhere the search comes to its
end.
-/
theorem comment {comment : List Char} (h : Reached before (comment ++ rest))
    (hkeeps : KeepsQuotes rest comment) : Reached (before ++ comment) rest := by
  induction hkeeps generalizing before with
  | nil => rwa [List.append_nil]
  | @char c comment hopen _ ih =>
    rw [← List.singleton_append, ← List.append_assoc]
    exact ih (h.char hopen)
  | @literal l comment hl _ ih =>
    rw [List.append_assoc] at h
    rw [← List.append_assoc]
    exact ih (h.string hl)

end Reached

/-- **The search comes to every place in the code**, if no quote of a comment is closed behind
it. -/
theorem InCode.reached {before rest : List Char} (h : InCode before rest)
    (hquotes : CommentsKeepQuotes (before ++ rest)) : Reached before rest := by
  induction h with
  | start text => exact .between [] 0 List.nil_suffix rfl
  | char _ hquote _ ih =>
    rw [List.append_assoc] at hquotes
    exact (ih hquotes).char (noLiteral_of_isQuote hquote _)
  | comment h hcomment ih =>
    rw [List.append_assoc] at hquotes
    exact (ih hquotes).comment (hquotes _ _ _ rfl h hcomment)
  | string _ hl ih =>
    rw [List.append_assoc] at hquotes
    exact (ih hquotes).string hl

/-! ## Interpolated variables -/

/-- What an identifier leaves of the inside of a literal. -/
theorem Inside.of_append {quote : Char} {run cs : List Char} (h : Inside quote (run ++ cs))
    (hrun : ∀ c ∈ run, c ≠ '\\') : Inside quote cs := by
  induction run with
  | nil => exact h
  | cons c run ih =>
    obtain ⟨hc, hrun⟩ := List.forall_mem_cons.mp hrun
    rw [List.cons_append] at h
    generalize htail : run ++ cs = tail at h
    cases h with
    | escape => exact absurd rfl hc
    | plain _ _ h => exact ih (htail ▸ h) hrun

/-- An identifier at the start of a text ends in front of the first `$`. -/
theorem exists_of_identifier? {front tail x rest : List Char}
    (h : identifier? (front ++ '$' :: tail) = some (x, rest)) :
    ∃ left, front = x ++ left ∧ rest = left ++ '$' :: tail := by
  have hx := (isIdentifier_of_identifier? h).1
  rcases List.append_eq_append_iff.mp (append_of_identifier? h) with ⟨left, hfront, hrest⟩ |
    ⟨cs, hx', hcs⟩
  · exact ⟨left, hfront, hrest⟩
  · cases cs with
    | nil => exact ⟨[], by simpa using hx'.symm, by simpa using hcs.symm⟩
    | cons c cs =>
      obtain ⟨rfl, -⟩ := List.cons.inj hcs
      exact absurd (isIdentifierChar_of_mem hx (hx' ▸ List.mem_append_right _ List.mem_cons_self))
        (by decide)

/-- A sigil in front of an identifier shows the variable. -/
theorem interpolated_dollar {cs x rest : List Char} (h : identifier? cs = some (x, rest)) :
    interpolated ('$' :: cs) = x :: interpolated rest := by
  rw [interpolated]
  · split
    · split <;> simp_all
    · simp_all
  all_goals simp

/-- Any other character shows nothing, except a backslash. -/
theorem interpolated_plain {c : Char} {cs : List Char} (hback : c ≠ '\\')
    (h : c = '$' → identifier? cs = none) : interpolated (c :: cs) = interpolated cs := by
  rw [interpolated]
  · split
    · split <;> simp_all
    · rfl
  all_goals simp [hback]

/-- **A double-quoted string interpolates each variable whose `$` is not escaped.** -/
theorem mem_interpolated {front name back : List Char} (hfront : Inside '"' front)
    (hname : isIdentifier name) (hback : StopsAt isIdentifierChar back) :
    name ∈ interpolated (front ++ '$' :: (name ++ back)) := by
  -- By induction on the length: a variable in front takes its whole name away.
  induction hn : front.length using Nat.strong_induction_on generalizing front with
  | _ n ih =>
  subst hn
  cases hfront with
  | nil =>
    rw [List.nil_append, interpolated_dollar (identifier?_append hname hback)]
    exact List.mem_cons_self
  | escape c h =>
    rw [List.cons_append, List.cons_append, interpolated]
    exact ih _ (by simp only [List.length_cons]; omega) h rfl
  | @plain c cs hback' hquote h =>
    by_cases hread : c = '$' ∧ ∃ x rest, identifier? (cs ++ '$' :: (name ++ back)) = some (x, rest)
    · obtain ⟨rfl, x, rest, hx⟩ := hread
      obtain ⟨left, rfl, rfl⟩ := exists_of_identifier? hx
      have hleft : Inside '"' left := h.of_append fun c hc =>
        ne_of_isIdentifierChar (isIdentifierChar_of_mem (isIdentifier_of_identifier? hx).1 hc)
          (by decide)
      rw [List.cons_append, interpolated_dollar hx]
      refine List.mem_cons_of_mem x (ih _ ?_ hleft rfl)
      simp only [List.length_cons, List.length_append]
      omega
    · rw [List.cons_append, interpolated_plain hback' fun hc => ?_]
      · exact ih _ (by simp) h rfl
      · rw [Option.eq_none_iff_forall_ne_some]
        exact fun found hfound => hread ⟨hc, found.1, found.2, hfound⟩

/-! ## What the code shows -/

/-- **Host code mentions every variable that it shows**, if no quote of a comment is closed behind
the comment. -/
theorem mem_mentioned_of_shows {code x : String} (h : Shows code.toList x.toList)
    (hquotes : CommentsKeepQuotes code.toList) : x ∈ mentioned code := by
  suffices hx : x.toList ∈ namesFrom 0 code.toList by
    rw [← String.ofList_toList (s := code), mentioned_ofList]
    exact List.mem_map.mpr ⟨x.toList, hx, String.ofList_toList⟩
  cases h with
  | @code before after htext hcode hname hafter hcolons =>
    rw [htext] at hquotes ⊢
    obtain ⟨names, colons, hsuffix, hnames⟩ :=
      (hcode.reached hquotes).exists_names (stopsAt_cons.mpr (by decide))
    have hlt : colons < 2 := by
      by_contra hge
      obtain ⟨n, rfl⟩ : ∃ n, colons = n + 2 := ⟨colons - 2, by omega⟩
      refine hcolons (List.IsSuffix.trans ⟨List.replicate n ':', ?_⟩ hsuffix)
      simp [List.replicate_succ']
    rw [hnames, namesFrom_variable hlt hname hafter]
    exact List.mem_append_right _ List.mem_cons_self
  | @interpolated before after front back l htext hcode hl hquote hinside hfront hname hback =>
    rw [htext] at hquotes ⊢
    obtain ⟨names, hnames⟩ := (hcode.reached hquotes).exists_names_string hl
    rw [hnames, Piece.names, hquote, hinside]
    exact List.mem_append_right _
      (List.mem_append_left _ (mem_interpolated hfront hname hback))

end ViewCompiler.Expression
