import Mathlib.Data.List.Basic
import ViewCompiler.Proofs.Expression.Quotes
import ViewCompiler.Proofs.Text.Cut

/-!
# A variable in place of a call

What happens to the pieces of an expression when a variable takes the place of one of its calls.
The literals and the other calls stay pieces, but the variable may become part of a call that was
not there before: as its variable, where the call was the argument of the accessor function, or as
the function, where the name of the variable ends like the function's and a parenthesis follows.
`Inert` excludes both, and then the pieces are the old ones with the characters of the variable in
place of the call (`isCut_exchange`). The pieces before a call and the call itself are the same
whatever stands behind the call (`IsCut.pieces_append`).
-/

namespace ViewCompiler.Expression

/-! ## Where the parts of a call stand -/

/-- The name of the accessor function. -/
def functionName : List Char := ['d', 'a', 't', 'a', '_', 'g', 'e', 't']

/-- The opening of a call is the function's name and a parenthesis. -/
theorem callOpening_eq : callOpening = functionName ++ ['('] := rfl

/-- Neither a second dollar sign nor a second opening parenthesis stands in a call. -/
theorem DottedPath.Readable.not_mem {a : DottedPath} (h : a.Readable) {c : Char}
    (hc : c = '$' ∨ c = '(') : c ∉ a.name ++ callEnding a.path := by
  have hname : c ∉ a.name := by
    intro hmem
    have := isIdentifierChar_of_mem h.isIdentifier hmem
    rcases hc with rfl | rfl <;> exact absurd this (by decide)
  have hpath : c ∉ a.path := by
    intro hmem
    have := h.isPath c hmem
    rcases hc with rfl | rfl <;> exact absurd this (by decide)
  rcases hc with rfl | rfl <;> simp [callEnding, hname, hpath]

/-- A call whose dollar sign stands at a known place. -/
theorem DottedPath.Readable.of_dollar {a : DottedPath} (h : a.Readable) {before after : List Char}
    (heq : a.call = before ++ '$' :: after) :
    before = callOpening ∧ after = a.name ++ callEnding a.path := by
  rw [call_eq] at heq
  have hopening : '$' ∉ callOpening := by decide
  obtain ⟨hbefore, -, hafter⟩ :=
    (List.append_cons_inj_of_notMem hopening (h.not_mem (.inl rfl))).mp heq
  exact ⟨hbefore.symm, hafter.symm⟩

/-- A call whose opening parenthesis stands at a known place. -/
theorem DottedPath.Readable.of_parenthesis {a : DottedPath} (h : a.Readable)
    {before after : List Char} (heq : a.call = before ++ '(' :: after) :
    before = functionName := by
  have hsplit : a.call = functionName ++ '(' :: '$' :: (a.name ++ callEnding a.path) := by
    rw [call_eq, callOpening_eq, List.append_assoc]
    rfl
  have hmem : '(' ∉ '$' :: (a.name ++ callEnding a.path) := by
    rw [List.mem_cons, not_or]
    exact ⟨by decide, h.not_mem (.inr rfl)⟩
  have hname : '(' ∉ functionName := by decide
  rw [hsplit] at heq
  exact ((List.append_cons_inj_of_notMem hname hmem).mp heq).1.symm

/-- No call that starts before another call reaches behind its end. -/
theorem accessor?_append_call {a : DottedPath} {u : List Char} (hu : u ≠ [])
    {rest : List Char} (h : accessor? (u ++ (a.call ++ rest)) = none) (other : List Char) :
    accessor? (u ++ (a.call ++ other)) = none := by
  cases hread : accessor? (u ++ (a.call ++ other)) with
  | none => rfl
  | some found =>
    obtain ⟨b, left⟩ := found
    obtain ⟨hb, heq⟩ := accessor?_eq_some_iff.mp hread
    rw [← List.append_assoc] at heq
    rcases List.append_eq_append_iff.mp heq with ⟨m, hm, -⟩ | ⟨m, hm, -⟩
    · rw [← List.append_assoc, hm, List.append_assoc, accessor?_append hb] at h
      simp at h
    · have hlong :
        b.call = (u ++ functionName) ++ '(' :: ('$' :: (a.name ++ callEnding a.path) ++ m) := by
        rw [hm, call_eq, callOpening_eq]
        simp
      have := hb.of_parenthesis hlong
      simp [hu] at this

/-! ## Cuts with another end -/

/-- The pieces of a cut stay pieces in front of another end, if none of their quotes opens a
literal there and no call comes up that starts in them and reaches into the end. -/
theorem IsCut.change {before after after' : List CallPiece} (h : IsCut (before ++ after))
    (hquotes : QuotesStayOpen before (spelled after) (spelled after')) (hafter : IsCut after')
    (hcalls : ∀ u, u ≠ [] → u <:+ spelled before → accessor? (u ++ spelled after) = none →
      accessor? (u ++ spelled after') = none) :
    IsCut (before ++ after') := by
  induction before with
  | nil => exact hafter
  | cons p before ih =>
    rw [List.cons_append, isCut_cons] at h
    obtain ⟨hp, hcut⟩ := h
    have hsuffix : spelled before <:+ spelled (p :: before) := List.suffix_append _ _
    have hrest : IsCut (before ++ after') :=
      ih hcut hquotes.of_cons fun u hu hsub => hcalls u hu (hsub.trans hsuffix)
    rw [List.cons_append, isCut_cons]
    refine ⟨?_, hrest⟩
    cases p with
    | literal l => exact cutsOff_literal hp _
    | phrase a => exact cutsOff_phrase.mpr (cutsOff_phrase.mp hp)
    | char c =>
      obtain ⟨hliteral, hcall⟩ := cutsOff_char.mp hp
      rw [spelled_append] at hliteral hcall
      rw [cutsOff_char, spelled_append]
      exact ⟨hquotes c before (List.suffix_refl _) hliteral,
        hcalls _ (List.cons_ne_nil _ _) (List.suffix_refl _) hcall⟩

/-- **A cut up to a call is the same whatever stands behind the call**, if no quote is closed
there. -/
theorem IsCut.pieces_append {before after : List CallPiece} {a : DottedPath}
    (h : IsCut (before ++ .phrase a :: after)) {rest : List Char}
    (hquotes : QuotesStayOpen before (a.call ++ spelled after) (a.call ++ rest)) :
    accessor.pieces (spelled before ++ (a.call ++ rest)) =
      before ++ .phrase a :: accessor.pieces rest := by
  have htext : spelled (.phrase a :: accessor.pieces rest) = a.call ++ rest :=
    congrArg (a.call ++ ·) (accessor.text_pieces rest)
  have htail : IsCut (.phrase a :: accessor.pieces rest) :=
    isCut_cons.mpr ⟨cutsOff_phrase.mpr h.readable, isCut_pieces rest⟩
  have hcut : IsCut (before ++ .phrase a :: accessor.pieces rest) := by
    refine h.change (htext ▸ hquotes) htail fun u hu _ hnone => ?_
    rw [htext]
    exact accessor?_append_call hu hnone rest
  rw [← htext, ← spelled_append]
  exact hcut

/-! ## Places of calls -/

/-- A call between these two texts is whole: neither a name, nor an arrow, a double colon, a dollar
sign or a backslash before it, nor a name behind it makes it part of something else. -/
structure Whole (before after : List Char) : Prop where
  notGlued : ∀ c ∈ before.getLast?, isIdentifierChar c = false ∧ c ≠ '$' ∧ c ≠ '\\'
  notMember : ¬ ['-', '>'] <:+ before
  notStatic : ¬ [':', ':'] <:+ before
  stops : StopsAt isIdentifierChar after

/-- A call between these two texts stands by itself: no literal is open there, and neither a name,
nor an arrow, a double colon, a dollar sign or a backslash before it, nor a name behind it makes it
part of something else. -/
structure StandsAlone (before : List CallPiece) (after : List Char) : Prop where
  noLoneQuote : NoLoneQuote before
  notGlued : ∀ c ∈ (spelled before).getLast?, isIdentifierChar c = false ∧ c ≠ '$' ∧ c ≠ '\\'
  notMember : ¬ ['-', '>'] <:+ spelled before
  notStatic : ¬ [':', ':'] <:+ spelled before
  stops : StopsAt isIdentifierChar after

/-- A call that stands by itself is a whole call. -/
theorem StandsAlone.whole {before : List CallPiece} {after : List Char}
    (h : StandsAlone before after) : Whole (spelled before) after :=
  ⟨h.notGlued, h.notMember, h.notStatic, h.stops⟩

/-- A whole call stands by itself behind pieces without a lone quote. -/
theorem Whole.standsAlone {before : List CallPiece} {after : List Char}
    (h : Whole (spelled before) after) (hquote : NoLoneQuote before) : StandsAlone before after :=
  ⟨hquote, h.notGlued, h.notMember, h.notStatic, h.stops⟩

/-- A call goes on with an identifier. -/
theorem ne_nil_of_stopsAt {m rest : List Char} {c : DottedPath}
    (h : StopsAt isIdentifierChar (m ++ (c.call ++ rest))) : m ≠ [] := by
  rintro rfl
  rw [List.nil_append, call_eq] at h
  exact absurd (stopsAt_cons.mp h) (by decide)

/-- Something stands between a call that stands by itself and the next call. -/
theorem StandsAlone.spelled_ne_nil {before m post : List CallPiece} {c : DottedPath}
    (h : StandsAlone before (spelled (m ++ .phrase c :: post))) : spelled m ≠ [] := by
  have hstop := h.stops
  rw [spelled_append] at hstop
  exact ne_nil_of_stopsAt (c := c) hstop

/-! ## Exchange -/

/-- A variable as pieces. -/
def variablePieces (x : List Char) : List CallPiece := ('$' :: x).map .char

/-- A variable as its pieces spell it. -/
@[simp] theorem spelled_variablePieces (x : List Char) :
    spelled (variablePieces x) = '$' :: x := spelled_map_char _

/-- A variable between two texts is part of no call: it is not the argument of the accessor
function, with a path behind it, and its name does not end like that of the function, with a
parenthesis behind it. -/
structure Inert (before x after : List Char) : Prop where
  notArgument : callOpening <:+ before → ∀ path, path ≠ [] → (∀ c ∈ path, isPathChar c) →
    ¬ callEnding path <+: after
  notCalled : functionName <:+ x → ¬ ['('] <+: after

/-- A call that starts before a variable ends before it or has it as its variable. -/
theorem accessor?_append_variable {u x after : List Char} (hx : isIdentifier x)
    (hafter : StopsAt isIdentifierChar after)
    (hinert : u = callOpening → ∀ path, path ≠ [] → (∀ c ∈ path, isPathChar c) →
      ¬ callEnding path <+: after)
    {rest : List Char} (h : accessor? (u ++ rest) = none) :
    accessor? (u ++ '$' :: (x ++ after)) = none := by
  cases hread : accessor? (u ++ '$' :: (x ++ after)) with
  | none => rfl
  | some found =>
    obtain ⟨b, left⟩ := found
    obtain ⟨hb, heq⟩ := accessor?_eq_some_iff.mp hread
    rcases List.append_eq_append_iff.mp heq with ⟨m, rfl, -⟩ | ⟨m, hm, hleft⟩
    · rw [List.append_assoc, accessor?_append hb] at h
      simp at h
    · cases m with
      | nil =>
        rw [List.append_nil] at hm
        rw [← hm, accessor?_append hb] at h
        simp at h
      | cons c m =>
        obtain ⟨rfl, htail⟩ := List.cons.inj hleft
        obtain ⟨rfl, rfl⟩ := hb.of_dollar hm
        -- What is read as the name is the whole variable, so its path stands behind the variable.
        have htext := htail.trans (List.append_assoc b.name (callEnding b.path) left)
        have hname : identifier? (b.name ++ (callEnding b.path ++ left)) =
            some (b.name, callEnding b.path ++ left) :=
          identifier?_append hb.isIdentifier (stopsAt_cons.mpr (by decide))
        rw [← htext, identifier?_append hx hafter] at hname
        obtain ⟨-, rfl⟩ := Prod.mk.inj (Option.some.inj hname)
        exact absurd (List.prefix_append _ _) (hinert rfl b.path hb.path_ne_nil hb.isPath)

/-- No call starts within a variable, unless its name ends like that of the accessor function. -/
theorem accessor?_append_name {u after : List Char} (hu : ∀ c ∈ u, isIdentifierChar c)
    (hafter : StopsAt isIdentifierChar after)
    (hinert : u = functionName → ¬ ['('] <+: after) : accessor? (u ++ after) = none := by
  cases hread : accessor? (u ++ after) with
  | none => rfl
  | some found =>
    obtain ⟨b, left⟩ := found
    obtain ⟨hb, heq⟩ := accessor?_eq_some_iff.mp hread
    have hcall : b.call ++ left =
        functionName ++ '(' :: ('$' :: (b.name ++ callEnding b.path) ++ left) := by
      rw [call_eq, callOpening_eq]
      simp
    have hstop : StopsAt isIdentifierChar
        ('(' :: ('$' :: (b.name ++ callEnding b.path) ++ left)) := stopsAt_cons.mpr (by decide)
    have hname : u = functionName := by
      rw [← takeWhile_append_stop hu hafter, ← heq, hcall,
        takeWhile_append_stop (fun _ => isIdentifierChar_of_mem rfl) hstop]
    rw [hcall, hname] at heq
    have hparen : ['('] <+: after := ⟨_, List.append_cancel_left heq⟩
    exact absurd hparen (hinert hname)

/-- A variable and what stands behind it, cut. -/
theorem isCut_variable {x : List Char} {after : List CallPiece} (hx : isIdentifier x)
    (h : IsCut after) (hstop : StopsAt isIdentifierChar (spelled after))
    (hinert : functionName <:+ x → ¬ ['('] <+: spelled after) :
    IsCut (variablePieces x ++ after) := by
  have hchars : ∀ u, u <:+ x → IsCut (u.map .char ++ after) := by
    intro u
    induction u with
    | nil => exact fun _ => h
    | cons c u ih =>
      intro hu
      have hmem : ∀ d ∈ c :: u, isIdentifierChar d := fun d hd =>
        isIdentifierChar_of_mem hx (hu.subset hd)
      have hquote := isQuote_of_isIdentifierChar (hmem c List.mem_cons_self)
      rw [List.map_cons, List.cons_append, isCut_cons]
      refine ⟨cutsOff_char.mpr ⟨literal?_eq_none hquote _, ?_⟩,
        ih ((List.suffix_cons c u).trans hu)⟩
      rw [spelled_append, spelled_map_char, ← List.cons_append]
      exact accessor?_append_name hmem hstop fun heq => hinert (heq ▸ hu)
  rw [variablePieces, List.map_cons, List.cons_append, isCut_cons]
  exact ⟨cutsOff_char.mpr ⟨literal?_eq_none (by decide) _, rfl⟩, hchars x (List.suffix_refl x)⟩

/-- **The pieces with a variable in place of a call** are the old ones with the variable's
characters in place of the call. -/
theorem isCut_exchange {before after : List CallPiece} {a : DottedPath} {x : List Char}
    (h : IsCut (before ++ .phrase a :: after)) (hstops : StopsAt isIdentifierChar (spelled after))
    (hx : isIdentifier x) (hinert : Inert (spelled before) x (spelled after)) :
    IsCut (before ++ (variablePieces x ++ after)) := by
  have hafter : IsCut after := (isCut_cons.mp h.of_append).2
  have htext : spelled (variablePieces x ++ after) = '$' :: (x ++ spelled after) := by
    rw [spelled_append, spelled_variablePieces, List.cons_append]
  have hquotes : QuotesStayOpen before (spelled (.phrase a :: after))
      (spelled (variablePieces x ++ after)) := by
    rw [htext]
    exact quotesStayOpen_variable h.readable hx (spelled after)
  refine h.change hquotes (isCut_variable hx hafter hstops hinert.notCalled) fun u _ hu hnone => ?_
  rw [htext]
  exact accessor?_append_variable hx hstops (fun heq => hinert.notArgument (heq ▸ hu)) hnone

/-! ## Texts before and behind a variable -/

/-- An end that reaches over an identifier and holds none of its characters stands behind it. -/
theorem suffix_of_suffix_append_identifier {w u x m : List Char} (hx : isIdentifier x)
    (hw : ∀ c ∈ w, isIdentifierChar c = false) (h : w <:+ u ++ (x ++ m)) : w <:+ m := by
  obtain ⟨t, ht⟩ := h
  rw [← List.append_assoc] at ht
  rcases List.append_eq_append_iff.mp ht with ⟨k, hk, hw'⟩ | ⟨k, -, rfl⟩
  · rcases List.eq_nil_or_concat k with rfl | ⟨k', c, rfl⟩
    · rw [List.nil_append] at hw'
      exact hw' ▸ List.suffix_refl _
    · have hne : x ≠ [] := by rintro rfl; simp [isIdentifier] at hx
      have hlast : (u ++ x).getLast? = some c := by rw [hk]; simp
      rw [List.getLast?_append_of_ne_nil _ hne] at hlast
      have hchar := isIdentifierChar_of_mem hx (List.mem_of_getLast? hlast)
      have hnot := hw c (by rw [hw']; simp)
      rw [hnot] at hchar
      exact absurd hchar (by decide)
  · exact List.suffix_append _ _

/-- An opening of a call that reaches over a variable consists of the end of the variable's name
and a parenthesis, or stands behind the variable. -/
theorem callOpening_of_suffix {u x m : List Char} (hx : isIdentifier x)
    (hm : StopsAt isIdentifierChar m) (hne : m ≠ []) (h : callOpening <:+ u ++ ('$' :: x ++ m)) :
    callOpening <:+ m ∨ functionName <:+ x ∧ m = ['('] := by
  have hdollar : callOpening <:+ x ++ m := by
    obtain ⟨t, ht⟩ := h
    rw [List.cons_append] at ht
    rcases List.append_eq_append_iff.mp ht with ⟨k, -, hk⟩ | ⟨k, -, hk⟩
    · cases k with
      | nil => exact absurd (hk ▸ List.mem_cons_self : '$' ∈ callOpening) (by decide)
      | cons c k =>
        have hmem : '$' ∈ c :: k ++ '$' :: (x ++ m) := by simp
        exact absurd (hk ▸ hmem : '$' ∈ callOpening) (by decide)
    · cases k with
      | nil =>
        rw [List.nil_append] at hk
        exact absurd (hk ▸ List.mem_cons_self : '$' ∈ callOpening) (by decide)
      | cons c k => exact ⟨k, (List.cons.inj hk).2.symm⟩
  obtain ⟨t, ht⟩ := hdollar
  rcases List.append_eq_append_iff.mp ht with ⟨k, rfl, hk⟩ | ⟨k, -, rfl⟩
  · right
    have hkx : ∀ c ∈ k, isIdentifierChar c := fun c hc =>
      isIdentifierChar_of_mem hx (List.mem_append_right _ hc)
    have hname : k = functionName := by
      rw [← takeWhile_append_stop hkx hm, ← hk]
      rfl
    subst hname
    rw [callOpening_eq] at hk
    exact ⟨List.suffix_append _ _, (List.append_cancel_left hk).symm⟩
  · exact .inl (List.suffix_append _ _)

/-! ## Other calls after an exchange -/

/-- The end of a call in front of a dollar sign stands before it. -/
theorem prefix_of_callEnding_prefix {path m rest : List Char} (hpath : ∀ c ∈ path, isPathChar c)
    (h : callEnding path <+: m ++ '$' :: rest) : callEnding path <+: m := by
  have hdollar : '$' ∉ callEnding path := by
    have : '$' ∉ path := fun hmem => absurd (hpath _ hmem) (by decide)
    simp [callEnding, this]
  exact Text.prefix_of_prefix_append_cons hdollar h

/-- A call before the place of an exchange. -/
theorem Whole.exchange_after {pre m x rest : List Char} {a : DottedPath}
    (h : Whole pre (m ++ (a.call ++ rest))) : Whole pre (m ++ '$' :: (x ++ rest)) := by
  refine ⟨h.notGlued, h.notMember, h.notStatic, ?_⟩
  by_cases hne : m = []
  · rw [hne]
    exact stopsAt_cons.mpr (by decide)
  · exact (stopsAt_append_iff hne).mpr ((stopsAt_append_iff hne).mp h.stops)

/-- A call stands by itself still if a later call becomes a variable. -/
theorem StandsAlone.exchange_after {pre m : List CallPiece} {a : DottedPath} {x rest : List Char}
    (h : StandsAlone pre (spelled m ++ (a.call ++ rest))) :
    StandsAlone pre (spelled m ++ '$' :: (x ++ rest)) :=
  h.whole.exchange_after.standsAlone h.noLoneQuote

/-- A variable before the place of an exchange. -/
theorem Inert.exchange_after {pre base m x rest : List Char} {a : DottedPath}
    (h : Inert pre base (m ++ (a.call ++ rest))) : Inert pre base (m ++ '$' :: (x ++ rest)) := by
  constructor
  · intro hopening path hne hpath hending
    have hm := prefix_of_callEnding_prefix hpath hending
    exact h.notArgument hopening path hne hpath (hm.trans (List.prefix_append _ _))
  · intro hname hparen
    have hm := Text.prefix_of_prefix_append_cons (by decide) hparen
    exact h.notCalled hname (hm.trans (List.prefix_append _ _))

/-- A call behind the place of an exchange. -/
theorem Whole.exchange_before {u m x after : List Char} {a : DottedPath}
    (h : Whole (u ++ (a.call ++ m)) after) (hx : isIdentifier x) (hne : m ≠ []) :
    Whole (u ++ '$' :: (x ++ m)) after := by
  have hspelled : u ++ '$' :: (x ++ m) = (u ++ ['$']) ++ (x ++ m) := by simp
  have hold : m <:+ u ++ (a.call ++ m) := by
    rw [← List.append_assoc]
    exact List.suffix_append _ _
  refine ⟨?_, ?_, ?_, h.stops⟩
  · have hglued := h.notGlued
    rw [hspelled, ← List.append_assoc, List.getLast?_append_of_ne_nil _ hne]
    rwa [← List.append_assoc, List.getLast?_append_of_ne_nil _ hne] at hglued
  · rw [hspelled]
    exact fun hsuffix => h.notMember
      ((suffix_of_suffix_append_identifier hx (forall_mem_of_all rfl) hsuffix).trans hold)
  · rw [hspelled]
    exact fun hsuffix => h.notStatic
      ((suffix_of_suffix_append_identifier hx (forall_mem_of_all rfl) hsuffix).trans hold)

/-- A call stands by itself still if an earlier call becomes a variable, unless it comes right
behind. -/
theorem StandsAlone.exchange_before {pre m : List CallPiece} {a : DottedPath} {x rest : List Char}
    (h : StandsAlone (pre ++ .phrase a :: m) rest) (hx : isIdentifier x) (hne : spelled m ≠ []) :
    StandsAlone (pre ++ (variablePieces x ++ m)) rest := by
  have hwhole := h.whole
  rw [spelled_append] at hwhole
  have hnew :
    spelled (pre ++ (variablePieces x ++ m)) = spelled pre ++ '$' :: (x ++ spelled m) := by
    simp
  refine (hnew ▸ hwhole.exchange_before (a := a) hx hne : Whole _ _).standsAlone fun c hc => ?_
  simp only [variablePieces, List.map_cons, List.mem_append, List.mem_cons, List.mem_map,
    Piece.char.injEq] at hc
  rcases hc with hc | (rfl | ⟨d, hd, rfl⟩) | hc
  · exact h.noLoneQuote c (List.mem_append_left _ hc)
  · rfl
  · exact isQuote_of_isIdentifierChar (isIdentifierChar_of_mem hx hd)
  · exact h.noLoneQuote c (List.mem_append_right _ (List.mem_cons_of_mem _ hc))

end ViewCompiler.Expression
