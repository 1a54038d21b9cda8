import ViewCompiler.Proofs.Template.Canonical
import ViewCompiler.Proofs.Template.Heads

/-!
# Reading what is printed

Every piece that a canonical tree is printed as is read as one lexeme, whatever stands behind it. A
keyword without arguments must not go on as a word, and the alternative of a conditional must not
go on as a later condition.
-/

namespace ViewCompiler.Template

open Text (isBlank trim lower foldedWord? IsTrimmed FirstMark)
open Expression (StopsAt isIdentifier isIdentifierChar isWordChar)

/-! ## Where a lexeme starts -/

/-- At a brace a comment, a raw echo and an escaped echo are tried, in this order. -/
theorem saying?_brace (cs : List Char) :
    saying? ('\x7b' :: cs) =
      (comment? ('\x7b' :: cs)).or
        ((rawEcho? ('\x7b' :: cs)).or (escapedEcho? ('\x7b' :: cs))) := by
  simp [saying?, host?, hostOpening?, argumentDirective?, alternative?, closingDirective?,
    plainKeyword?, slotOpening?, slotClosing?, openingTag?, closingTag?, closers, Text.mark?,
    remainder?]

/-- At the at sign a directive with an argument, an alternative and a closing directive are
tried. -/
theorem saying?_at (cs : List Char) :
    saying? ('@' :: cs) =
      (argumentDirective? ('@' :: cs)).or
        ((alternative? ('@' :: cs)).or (closingDirective? ('@' :: cs))) := by
  simp [saying?, host?, hostOpening?, comment?, rawEcho?, escapedEcho?, slotOpening?, slotClosing?,
    openingTag?, closingTag?, Text.mark?, remainder?]

/-- At a bracket host code, the tags of slots and those of components are tried. -/
theorem saying?_less (cs : List Char) :
    saying? ('<' :: cs) =
      (host? ('<' :: cs)).or ((slotOpening? ('<' :: cs)).or ((slotClosing? ('<' :: cs)).or
        ((openingTag? ('<' :: cs)).or (closingTag? ('<' :: cs))))) := by
  simp [saying?, comment?, rawEcho?, escapedEcho?, argumentDirective?, alternative?,
    closingDirective?, plainKeyword?, closers, Text.mark?, remainder?]

/-- No lexeme starts with any other character. -/
theorem saying?_other {c : Char} (hbrace : c ≠ '\x7b') (hat : c ≠ '@') (hless : c ≠ '<')
    (cs : List Char) : saying? (c :: cs) = none := by
  simp [saying?, comment?, rawEcho?, escapedEcho?, argumentDirective?, alternative?,
    closingDirective?, plainKeyword?, closers, Text.mark?, remainder?, host?, hostOpening?,
    slotOpening?, slotClosing?, openingTag?, closingTag?, hbrace.symm, hat.symm, hless.symm]

/-! ## Interpolations, comments and host code -/

/-- A mark is read off the text that starts with it. -/
theorem mark?_append (mark : String) (cs : List Char) :
    Text.mark? mark (mark.toList ++ cs) = some cs := remainder?_eq_some_iff.mpr rfl

/-- A padded text between two marks is read up to the second one. -/
theorem cut?_padded {barrier : Char → Bool} {mark : List Char} {s : String} (hne : mark ≠ [])
    (hmark : ' ' ∉ mark) (hspace : barrier ' ' = false)
    (hbarrier : ∀ c ∈ s.toList, barrier c = false) (h : ¬ mark <:+: s.toList) (rest : List Char) :
    Text.cut? barrier mark (padded s ++ (mark ++ rest)) = some (padded s, rest) :=
  (Text.cut?_append_iff rest).mpr (Text.firstMark_padding hne hmark hspace hbarrier h)

/-- Trimming takes the padding off a text that is trimmed. -/
theorem trim_padded {s : String} (h : IsTrimmed s.toList) :
    String.ofList (trim (padded s)) = s := by
  rw [padded, Text.trim_padding h, String.ofList_toList]

/-- A written comment is read back. -/
theorem saying?_comment {content : String} (htrim : IsTrimmed content.toList)
    (h : ¬ "--\x7d\x7d".toList <:+: content.toList) (rest : List Char) :
    saying? ("\x7b\x7b--".toList ++ (padded content ++ ("--\x7d\x7d".toList ++ rest))) =
      some (.node (.comment content), rest) := by
  have hcut : Text.cutAt? "--\x7d\x7d".toList (padded content ++ ("--\x7d\x7d".toList ++ rest)) =
      some (padded content, rest) :=
    cut?_padded (by decide) (by decide) rfl (fun _ _ => rfl) h rest
  have hread :
    comment? ("\x7b\x7b--".toList ++ (padded content ++ ("--\x7d\x7d".toList ++ rest))) =
      some (.node (.comment content), rest) := by
    rw [comment?, mark?_append, Option.bind_some, hcut]
    show some (Saying.node (.comment (String.ofList (trim (padded content)))), rest) = _
    rw [trim_padded htrim]
  exact (saying?_brace _).trans (Option.or_eq_some_iff.mpr (.inl hread))

/-- A padded expression is read as an echo of the expression. -/
theorem echo_padded {expression : String} (htrim : IsTrimmed expression.toList)
    (hne : expression ≠ "") (escaped : Bool) :
    echo (padded expression) escaped = .node (.echo expression escaped) := by
  have hpadded : trim (padded expression) = expression.toList := Text.trim_padding htrim
  rw [echo, hpadded]
  split
  · rename_i hnil
    exact absurd (String.toList_eq_nil_iff.mp hnil) hne
  · rename_i c cs heq
    rw [← heq, String.ofList_toList]

/-- A written raw echo is read back. -/
theorem saying?_rawEcho {expression : String} (htrim : IsTrimmed expression.toList)
    (hne : expression ≠ "") (hline : '\n' ∉ expression.toList)
    (h : ¬ "\x7d\x7d".toList <:+: expression.toList) (rest : List Char) :
    saying? ("\x7b\x7b\x7b".toList ++ (padded expression ++ ("\x7d\x7d\x7d".toList ++ rest))) =
      some (.node (.echo expression false), rest) := by
  have hcut : Text.cutInLine? "\x7d\x7d\x7d".toList
      (padded expression ++ ("\x7d\x7d\x7d".toList ++ rest)) = some (padded expression, rest) := by
    refine cut?_padded (by decide) (by decide) (by decide) (fun c hc => ?_) (fun hin => h ?_) rest
    · exact beq_eq_false_iff_ne.mpr fun heq => hline (heq ▸ hc)
    · exact List.IsInfix.trans ⟨['\x7d'], [], rfl⟩ hin
  have hread : rawEcho? ("\x7b\x7b\x7b".toList ++
      (padded expression ++ ("\x7d\x7d\x7d".toList ++ rest))) =
        some (.node (.echo expression false), rest) := by
    rw [rawEcho?, mark?_append, Option.bind_some, hcut]
    show some (echo (padded expression) false, rest) = _
    rw [echo_padded htrim hne]
  have hcomment : comment? ("\x7b\x7b\x7b".toList ++
      (padded expression ++ ("\x7d\x7d\x7d".toList ++ rest))) = none := by
    simp [comment?, Text.mark?, remainder?]
  refine (saying?_brace _).trans (Option.or_eq_some_iff.mpr (.inr ⟨hcomment, ?_⟩))
  exact Option.or_eq_some_iff.mpr (.inl hread)

/-- A written escaped echo is read back. -/
theorem saying?_escapedEcho {expression : String} (htrim : IsTrimmed expression.toList)
    (hne : expression ≠ "") (hline : '\n' ∉ expression.toList)
    (h : ¬ "\x7d\x7d".toList <:+: expression.toList) (rest : List Char) :
    saying? ("\x7b\x7b".toList ++ (padded expression ++ ("\x7d\x7d".toList ++ rest))) =
      some (.node (.echo expression true), rest) := by
  have hcut : Text.cutInLine? "\x7d\x7d".toList
      (padded expression ++ ("\x7d\x7d".toList ++ rest)) = some (padded expression, rest) := by
    refine cut?_padded (by decide) (by decide) (by decide) (fun c hc => ?_) h rest
    exact beq_eq_false_iff_ne.mpr fun heq => hline (heq ▸ hc)
  have hread : escapedEcho? ("\x7b\x7b".toList ++
      (padded expression ++ ("\x7d\x7d".toList ++ rest))) =
        some (.node (.echo expression true), rest) := by
    rw [escapedEcho?, mark?_append, Option.bind_some, hcut]
    show some (echo (padded expression) true, rest) = _
    rw [echo_padded htrim hne]
  -- The blank behind the mark is neither a hyphen nor a brace.
  have hcomment : comment? ("\x7b\x7b".toList ++
      (padded expression ++ ("\x7d\x7d".toList ++ rest))) = none := by
    simp [comment?, Text.mark?, remainder?, padded]
  have hraw : rawEcho? ("\x7b\x7b".toList ++
      (padded expression ++ ("\x7d\x7d".toList ++ rest))) = none := by
    simp [rawEcho?, Text.mark?, remainder?, padded]
  refine (saying?_brace _).trans (Option.or_eq_some_iff.mpr (.inr ⟨hcomment, ?_⟩))
  exact Option.or_eq_some_iff.mpr (.inr ⟨hraw, hread⟩)

/-- Host code is read up to its mark, behind either of the marks that open it. -/
theorem host?_padded {code : String} {cs rest : List Char} {printed : Bool}
    (hopening : hostOpening? cs = some (printed, padded code ++ ("?>".toList ++ rest)))
    (htrim : IsTrimmed code.toList) (h : ¬ "?>".toList <:+: code.toList) :
    host? cs = some (.node (.host code printed), rest) := by
  have hcut : Text.cutAt? "?>".toList (padded code ++ ("?>".toList ++ rest)) =
      some (padded code, rest) :=
    cut?_padded (by decide) (by decide) rfl (fun _ _ => rfl) h rest
  rw [host?, hopening]
  show (Text.cutAt? "?>".toList (padded code ++ ("?>".toList ++ rest))).bind _ = _
  rw [hcut]
  show some (Saying.node (.host (String.ofList (trim (padded code))) printed), rest) = _
  rw [trim_padded htrim]

/-- Written host code is read back. -/
theorem saying?_hostCode {code : String} (htrim : IsTrimmed code.toList)
    (h : ¬ "?>".toList <:+: code.toList) (rest : List Char) :
    saying? ("<?php".toList ++ (padded code ++ ("?>".toList ++ rest))) =
      some (.node (.host code false), rest) := by
  have hopening : hostOpening? ("<?php".toList ++ (padded code ++ ("?>".toList ++ rest))) =
      some (false, padded code ++ ("?>".toList ++ rest)) := by
    rw [hostOpening?, mark?_append]
    rfl
  exact (saying?_less _).trans (Option.or_eq_some_iff.mpr (.inl (host?_padded hopening htrim h)))

/-- A written echo of host code is read back. -/
theorem saying?_hostEcho {code : String} (htrim : IsTrimmed code.toList)
    (h : ¬ "?>".toList <:+: code.toList) (rest : List Char) :
    saying? ("<?=".toList ++ (padded code ++ ("?>".toList ++ rest))) =
      some (.node (.host code true), rest) := by
  have hopening : hostOpening? ("<?=".toList ++ (padded code ++ ("?>".toList ++ rest))) =
      some (true, padded code ++ ("?>".toList ++ rest)) := by
    have hnone : Text.mark? "<?php" ("<?=".toList ++ (padded code ++ ("?>".toList ++ rest))) =
        none := by
      simp [Text.mark?, remainder?]
    rw [hostOpening?, hnone, mark?_append]
    rfl
  exact (saying?_less _).trans (Option.or_eq_some_iff.mpr (.inl (host?_padded hopening htrim h)))

/-! ## Directives -/

/-- A keyword in front of a parenthesis is read whole. -/
theorem argumentKeyword?_append {keyword : String}
    (hkeyword : keyword ∈ "elseif" :: argumentKeywords) (rest : List Char) :
    argumentKeyword? (keyword.toList ++ '(' :: rest) = some (keyword.toList, '(' :: rest) := by
  simp only [argumentKeywords, List.mem_cons, List.not_mem_nil, or_false] at hkeyword
  rcases hkeyword with rfl | rfl | rfl | rfl | rfl | rfl | rfl <;>
    simp [argumentKeyword?, argumentKeywords, Text.mark?, remainder?, foldedWord?, Text.foldsTo,
      lower, Text.lowerChar]

/-- A written directive with an argument is read back. -/
theorem argumentDirective?_append {keyword : String} {argument : List Char}
    (hkeyword : keyword ∈ "elseif" :: argumentKeywords) (h : IsArgument argument)
    (rest : List Char) :
    argumentDirective? ('@' :: (keyword.toList ++ '(' :: (argument ++ ')' :: rest))) =
      some (directive keyword.toList argument, rest) := by
  have hmark : Text.mark? "@" ('@' :: (keyword.toList ++ '(' :: (argument ++ ')' :: rest))) =
      some (keyword.toList ++ '(' :: (argument ++ ')' :: rest)) := rfl
  have hread := argumentKeyword?_append hkeyword (argument ++ ')' :: rest)
  have hparen : Text.mark? "(" (('(' :: (argument ++ ')' :: rest)).dropWhile isBlank) =
      some (argument ++ ')' :: rest) := rfl
  have hdrop : (argument ++ ')' :: rest).drop (argument.length + 1) = rest := by
    rw [← List.drop_drop, List.drop_left]
    rfl
  simp only [argumentDirective?, hmark, hread, Option.bind_eq_bind, Option.bind_some, hparen,
    h.group.balance? rest, List.take_left, hdrop]
  rw [show trim argument = argument from h.trimmed]
  cases argument with
  | nil => exact absurd rfl h.ne_nil
  | cons c cs => rfl

/-- A keyword with an argument in parentheses is read as its directive. -/
theorem saying?_directive {keyword : String} {argument : List Char}
    (hkeyword : keyword ∈ "elseif" :: argumentKeywords) (h : IsArgument argument)
    (rest : List Char) :
    saying? (writtenDirective keyword argument ++ rest) =
      some (directive keyword.toList argument, rest) := by
  have htext : writtenDirective keyword argument ++ rest =
      '@' :: (keyword.toList ++ '(' :: (argument ++ ')' :: rest)) := by
    simp [writtenDirective]
  rw [htext]
  exact (saying?_at _).trans
    (Option.or_eq_some_iff.mpr (.inl (argumentDirective?_append hkeyword h rest)))

/-! ## Keywords without arguments -/

/-- A word ends where no word character follows. -/
theorem atWordEnd_iff {cs : List Char} : atWordEnd cs = true ↔ StopsAt isWordChar cs := by
  cases cs with
  | nil => simp [atWordEnd, Expression.stopsAt_nil]
  | cons c cs => simp [atWordEnd, Expression.stopsAt_cons]

/-- Behind the keyword of an alternative, only a condition makes it a later condition. -/
theorem argumentDirective?_else {rest : List Char} (h : NoCondition rest) :
    argumentDirective? ("@else".toList ++ rest) = none := by
  have hkeyword : argumentKeyword? ("else".toList ++ rest) =
      (foldedWord? ['i', 'f'] rest).map fun found =>
        (lower ("else".toList ++ found.1), found.2) := by
    cases hword : foldedWord? ['i', 'f'] rest <;>
      simp [argumentKeyword?, argumentKeywords, Text.mark?, remainder?, foldedWord?, Text.foldsTo,
        hword]
  have hmark : Text.mark? "@" ("@else".toList ++ rest) = some ("else".toList ++ rest) := rfl
  cases hword : foldedWord? ['i', 'f'] rest with
  | none =>
    simp only [argumentDirective?, hmark, hkeyword, hword, Option.bind_some, Option.map_none,
      Option.bind_eq_bind, Option.bind_none]
  | some found =>
    have hparen : Text.mark? "(" (found.2.dropWhile isBlank) = none := by
      refine Text.remainder?_eq_none_iff.mpr ?_
      rintro ⟨inside, hinside⟩
      exact h found.1 found.2 hword (by rw [← hinside]; rfl)
    simp only [argumentDirective?, hmark, hkeyword, hword, hparen, Option.bind_some,
      Option.map_some, Option.bind_eq_bind, Option.bind_none]

/-- A written alternative is read back where what follows does not go on with it. -/
theorem saying?_else {rest : List Char} (hend : StopsAt isWordChar rest) (h : NoCondition rest) :
    saying? ("@else".toList ++ rest) = some (.branch none, rest) := by
  have hread : alternative? ("@else".toList ++ rest) = some (.branch none, rest) := by
    simp [alternative?, plainKeyword?, Text.mark?, remainder?, foldedWord?, Text.foldsTo,
      atWordEnd_iff.mpr hend]
  refine (saying?_at _).trans (Option.or_eq_some_iff.mpr (.inr ⟨argumentDirective?_else h, ?_⟩))
  exact Option.or_eq_some_iff.mpr (.inl hread)

/-- A closing directive is read if no word goes on behind it. -/
theorem saying?_closer {closer : String × Closing} (hcloser : closer ∈ closers) {rest : List Char}
    (hend : StopsAt isWordChar rest) :
    saying? ('@' :: (closer.1.toList ++ rest)) = some (.closing closer.2, rest) := by
  have hword := atWordEnd_iff.mpr hend
  simp only [closers, List.mem_cons, List.not_mem_nil, or_false] at hcloser
  refine (saying?_at _).trans ?_
  rcases hcloser with rfl | rfl | rfl <;>
    simp [argumentDirective?, argumentKeyword?, argumentKeywords, alternative?, closingDirective?,
      closers, plainKeyword?, Text.mark?, remainder?, foldedWord?, Text.foldsTo, hword, lower,
      Text.lowerChar, closingNamed]

/-! ## Literal text -/

/-- Nothing but a lexeme follows. -/
def Marked (cs : List Char) : Prop := ∀ c ∈ cs.head?, c = '\x7b' ∨ c = '@' ∨ c = '<'

/-- At the end nothing but a lexeme follows. -/
theorem marked_nil : Marked [] := fun _ hc => absurd hc (by simp)

/-- A mark without these characters does not reach into the next lexeme. -/
theorem prefix_of_marked {mark cs rest : List Char}
    (hmark : '\x7b' ∉ mark ∧ '@' ∉ mark ∧ '<' ∉ mark) (hrest : Marked rest)
    (h : mark <+: cs ++ rest) : mark <+: cs := by
  cases rest with
  | nil => rwa [List.append_nil] at h
  | cons c rest =>
    refine Text.prefix_of_prefix_append_cons ?_ h
    rcases hrest c rfl with rfl | rfl | rfl
    · exact hmark.1
    · exact hmark.2.1
    · exact hmark.2.2

/-- No lexeme starts in literal text. -/
theorem saying?_literal {c : Char} {cs rest : List Char} (h : IsLiteral (c :: cs))
    (hrest : Marked rest) : saying? (c :: cs ++ rest) = none := by
  obtain ⟨-, ⟨hat, hbrace⟩, hhost, hopening, hclosing⟩ := h
  have hmark : ∀ mark : List Char, '\x7b' ∉ mark ∧ '@' ∉ mark ∧ '<' ∉ mark →
      ¬ '<' :: mark <:+: c :: cs → ¬ '<' :: mark <+: c :: cs ++ rest := by
    rintro mark hmark hholds hstarts
    rw [List.cons_append, List.cons_prefix_cons] at hstarts
    obtain ⟨rfl, hstarts⟩ := hstarts
    exact hholds
      (List.cons_prefix_cons.mpr ⟨rfl, prefix_of_marked hmark hrest hstarts⟩).isInfix
  have hhost := hmark ['?'] (by decide) hhost
  have hopening := hmark ['x', '-'] (by decide) hopening
  have hclosing := hmark ['/', 'x', '-'] (by decide) hclosing
  by_cases hless : c = '<'
  · have hnone : ∀ (mark : String) {start : List Char}, start <+: mark.toList →
        ¬ start <+: c :: cs ++ rest → Text.mark? mark (c :: cs ++ rest) = none :=
      fun _ _ hstart hnot =>
        Text.remainder?_eq_none_iff.mpr fun hstarts => hnot (hstart.trans hstarts)
    have hphp := hnone "<?php" ⟨['p', 'h', 'p'], rfl⟩ hhost
    have hecho := hnone "<?=" ⟨['='], rfl⟩ hhost
    have hslotOpening := hnone "<x-slot:" ⟨['s', 'l', 'o', 't', ':'], rfl⟩ hopening
    have hslotClosing := hnone "</x-slot" ⟨['s', 'l', 'o', 't'], rfl⟩ hclosing
    have hopening := hnone "<x-" ⟨[], rfl⟩ hopening
    have hclosing := hnone "</x-" ⟨[], rfl⟩ hclosing
    subst hless
    rw [List.cons_append] at *
    rw [saying?_less]
    simp [host?, hostOpening?, slotOpening?, slotClosing?, openingTag?, closingTag?, hphp, hecho,
      hslotOpening, hslotClosing, hopening, hclosing]
  · refine saying?_other ?_ ?_ hless _
    · rintro rfl
      exact hbrace List.mem_cons_self
    · rintro rfl
      exact hat List.mem_cons_self

/-- What is left of literal text without its first character is literal. -/
theorem IsLiteral.tail {c : Char} {cs : List Char} (h : IsLiteral (c :: cs)) (hne : cs ≠ []) :
    IsLiteral cs := by
  obtain ⟨-, ⟨hat, hbrace⟩, hhost, hopening, hclosing⟩ := h
  refine ⟨hne, ⟨?_, ?_⟩, ?_, ?_, ?_⟩
  · exact fun hmem => hat (List.mem_cons_of_mem c hmem)
  · exact fun hmem => hbrace (List.mem_cons_of_mem c hmem)
  · exact fun hin => hhost (List.infix_cons hin)
  · exact fun hin => hopening (List.infix_cons hin)
  · exact fun hin => hclosing (List.infix_cons hin)

end ViewCompiler.Template
