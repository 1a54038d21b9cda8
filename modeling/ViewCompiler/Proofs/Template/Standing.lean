import ViewCompiler.Proofs.Expression.Merging
import ViewCompiler.Proofs.Template.Hoisting

/-!
# Calls that may be part of other calls

`Settled` expressions stay settled in all rounds of hoisting, but no variable in them may become
the argument of another call. The rounds of the loops do not need this: such a new call is on an
internal variable, and they replace only calls on the variables of loops. `Standing` asks of these
calls that they stand by themselves and that none of them is called as a function under a name that
ends like the accessor function's. This is kept by a round, and of the calls on variables of the
program exactly those are left that are not replaced (`Standing.rewritten`).
-/

namespace ViewCompiler.Expression

/-- Whether a text starts with a character is seen at its start. -/
theorem singleton_prefix_append_iff {c : Char} {w rest : List Char} (hne : w ≠ []) :
    [c] <+: w ++ rest ↔ [c] <+: w := by
  cases w with
  | nil => exact absurd rfl hne
  | cons d w => simp

/-- A call that stands by itself does so in front of every end with the same start. -/
theorem StandsAlone.change_after {before : List CallPiece} {w rest rest' : List Char}
    (h : StandsAlone before (w ++ rest)) (hne : w ≠ []) : StandsAlone before (w ++ rest') :=
  ⟨h.noLoneQuote, h.notGlued, h.notMember, h.notStatic,
    (stopsAt_append_iff hne).mpr ((stopsAt_append_iff hne).mp h.stops)⟩

/-- A call that stands by itself does so behind every text with the same end, since only the last
two characters count. -/
theorem StandsAlone.change_before {before before' : List CallPiece} {u u' w after : List Char}
    (h : StandsAlone before after) (hquote : NoLoneQuote before') (hold : spelled before = u ++ w)
    (hnew : spelled before' = u' ++ w) (hlength : 2 ≤ w.length) : StandsAlone before' after := by
  have hne : w ≠ [] := by rintro rfl; simp at hlength
  have hend : ∀ pair : List Char, pair.length = 2 → ¬ pair <:+ spelled before →
      ¬ pair <:+ spelled before' := by
    intro pair hpair hnot hsuffix
    rw [hnew] at hsuffix
    rw [hold] at hnot
    have hw : pair <:+ w :=
      List.suffix_of_suffix_length_le hsuffix (List.suffix_append _ _) (by omega)
    exact hnot (hw.trans (List.suffix_append _ _))
  refine ⟨hquote, ?_, hend _ rfl h.notMember, hend _ rfl h.notStatic, h.stops⟩
  have hglued := h.notGlued
  rw [hold, List.getLast?_append_of_ne_nil _ hne] at hglued
  rwa [hnew, List.getLast?_append_of_ne_nil _ hne]

end ViewCompiler.Expression

namespace ViewCompiler.Template

open Expression

/-! ## Calls that are moved -/

/-- Every call of the pieces that is moved stands by itself, and is not called as a function if the
name for its value ends like that of the accessor function. -/
def Standing (moved : DottedPath → Prop) (pieces : List CallPiece) : Prop :=
  ∀ before a after, pieces = before ++ .phrase a :: after → moved a →
    StandsAlone before (spelled after) ∧
      (functionName <:+ (hoistBase a).toList → ¬ ['('] <+: spelled after)

/-- The call is on a variable of the program. -/
def ofProgram (a : DottedPath) : Bool := !isInternal (String.ofList a.name)

/-- The calls of pieces on variables of the program, in order. -/
def programCalls (pieces : List CallPiece) : List DottedPath :=
  (pieces.filterMap Piece.phrase?).filter ofProgram

/-- No pieces have no calls. -/
@[simp] theorem programCalls_nil : programCalls [] = [] := rfl

/-- A character is no call. -/
@[simp] theorem programCalls_char (c : Char) (pieces : List CallPiece) :
    programCalls (.char c :: pieces) = programCalls pieces := rfl

/-- A literal is no call. -/
@[simp] theorem programCalls_literal (l : Literal) (pieces : List CallPiece) :
    programCalls (.literal l :: pieces) = programCalls pieces := rfl

/-- A call counts where it is on a variable of the program. -/
theorem programCalls_phrase (a : DottedPath) (pieces : List CallPiece) :
    programCalls (.phrase a :: pieces) =
      if ofProgram a then a :: programCalls pieces else programCalls pieces :=
  List.filter_cons

/-- The calls of pieces one after the other are those of both. -/
@[simp] theorem programCalls_append (before after : List CallPiece) :
    programCalls (before ++ after) = programCalls before ++ programCalls after := by
  simp [programCalls]

/-- Characters have no calls. -/
@[simp] theorem programCalls_map_char (cs : List Char) : programCalls (cs.map .char) = [] := by
  induction cs with
  | nil => rfl
  | cons c cs ih => exact ih

section Standing

variable {moved : DottedPath → Prop} {before after : List CallPiece} {a : DottedPath}
  {x : List Char}

/-- A variable among characters leaves the other calls standing. -/
theorem Standing.exchange_plain (h : Standing moved (before ++ .phrase a :: after)) (ha : moved a)
    (hx : isIdentifier x) : Standing moved (before ++ (variablePieces x ++ after)) := by
  intro pre c post heq hc
  rcases exists_call_exchange heq with ⟨m, rfl, rfl⟩ | ⟨m, rfl, rfl⟩
  · obtain ⟨halone, hcalled⟩ := h pre c (m ++ .phrase a :: after) (by simp) hc
    have hold : spelled (m ++ .phrase a :: after) = spelled m ++ (a.call ++ spelled after) := by
      rw [spelled_append, spelled_cons]
      rfl
    have hnew : spelled (m ++ (variablePieces x ++ after)) =
        spelled m ++ '$' :: (x ++ spelled after) := by simp
    rw [hold] at halone hcalled
    rw [hnew]
    refine ⟨halone.exchange_after, fun hname hparen => hcalled hname ?_⟩
    exact (Text.prefix_of_prefix_append_cons (by decide) hparen).trans (List.prefix_append _ _)
  · obtain ⟨halone, hcalled⟩ := h (before ++ .phrase a :: m) c post (by simp) hc
    exact ⟨halone.exchange_before hx (h before a _ rfl ha).1.spelled_ne_nil, hcalled⟩

/-- A new call on a variable that is not of the program leaves the other calls standing. -/
theorem Standing.exchange_merged {pre rest : List CallPiece} {path : List Char}
    (h : Standing moved
    (pre ++ (callOpening.map .char ++ .phrase a :: (endingPieces path ++ rest))))
    (hx : ¬ moved ⟨x, path⟩) : Standing moved (pre ++ .phrase ⟨x, path⟩ :: rest) := by
  intro front c post heq hc
  rcases List.append_eq_append_iff.mp heq with ⟨k, rfl, hk⟩ | ⟨k, rfl, hk⟩
  · cases k with
    | nil =>
      obtain rfl := Piece.phrase.inj (List.cons.inj hk).1
      exact absurd hc hx
    | cons p m =>
      obtain ⟨rfl, rfl⟩ := List.cons.inj hk
      -- The call stands behind the new one, whose last characters are those of the old pieces.
      obtain ⟨halone, hcalled⟩ := h
        (pre ++ (callOpening.map .char ++ .phrase a :: (endingPieces path ++ m))) c post
          (by simp) hc
      have hold :
        spelled (pre ++ (callOpening.map .char ++ .phrase a :: (endingPieces path ++ m))) =
          (spelled pre ++ (callOpening ++ (a.call ++ ',' :: ' ' :: '\'' :: path))) ++
            '\'' :: ')' :: spelled m := by
        simp [Piece.text, callEnding]
      have hnew : spelled (pre ++ .phrase ⟨x, path⟩ :: m) =
          (spelled pre ++ (callOpening ++ '$' :: (x ++ ',' :: ' ' :: '\'' :: path))) ++
            '\'' :: ')' :: spelled m := by
        simp [Piece.text, call_eq, callEnding]
      refine ⟨halone.change_before (fun d hd => halone.noLoneQuote d ?_) hold hnew (by simp),
        hcalled⟩
      simp only [List.mem_append, List.mem_cons] at hd ⊢
      rcases hd with hd | hd | hd
      · exact .inl hd
      · cases hd
      · exact .inr (.inr (.inr (.inr hd)))
  · cases k with
    | nil =>
      obtain rfl := Piece.phrase.inj (List.cons.inj hk).1
      exact absurd hc hx
    | cons p m =>
      rw [List.cons_append] at hk
      obtain ⟨rfl, rfl⟩ := List.cons.inj hk
      obtain ⟨halone, hcalled⟩ := h front c
        (m ++ (callOpening.map .char ++ .phrase a :: (endingPieces path ++ rest))) (by simp) hc
      have hold :
        spelled (m ++ (callOpening.map .char ++ .phrase a :: (endingPieces path ++ rest))) =
          (spelled m ++ callOpening) ++ spelled (.phrase a :: (endingPieces path ++ rest)) := by
        simp
      have hnew : spelled (m ++ .phrase ⟨x, path⟩ :: rest) =
          (spelled m ++ callOpening) ++ '$' :: (x ++ (callEnding path ++ spelled rest)) := by
        simp [Piece.text, call_eq]
      have hne : spelled m ++ callOpening ≠ [] := by simp [callOpening]
      rw [hold] at halone hcalled
      rw [hnew]
      exact ⟨halone.change_after hne, fun hname hparen =>
        hcalled hname ((singleton_prefix_append_iff hne).mpr
          ((singleton_prefix_append_iff hne).mp hparen))⟩

/-- **A variable in place of a call that is moved leaves the other calls standing**, and the calls
on variables of the program are the other ones. -/
theorem Standing.exchange (hcut : IsCut (before ++ .phrase a :: after))
    (h : Standing moved (before ++ .phrase a :: after))
    (hprogram : ∀ c, moved c → ofProgram c = true)
    (ha : moved a) (hx : isIdentifier x) (hinternal : isInternal (String.ofList x) = true)
    (hbase : functionName <:+ x → functionName <:+ (hoistBase a).toList) :
    Standing moved (accessor.pieces (spelled before ++ '$' :: (x ++ spelled after))) ∧
      programCalls (accessor.pieces (spelled before ++ '$' :: (x ++ spelled after))) =
        programCalls before ++ programCalls after := by
  obtain ⟨halone, hcalled⟩ := h before a after rfl ha
  rcases exists_pieces_exchange hcut halone.stops hx fun hname => hcalled (hbase hname) with
    hnew | ⟨pre, path, rest, rfl, rfl, hnew⟩
  · have hpieces : accessor.pieces (spelled before ++ '$' :: (x ++ spelled after)) =
        before ++ (variablePieces x ++ after) := by
      rw [← hnew, spelled_append, spelled_append, spelled_variablePieces]
      rfl
    rw [hpieces]
    refine ⟨h.exchange_plain ha hx, ?_⟩
    rw [programCalls_append, programCalls_append, variablePieces, programCalls_map_char,
      List.nil_append]
  · have hpieces : accessor.pieces (spelled (pre ++ callOpening.map .char) ++
        '$' :: (x ++ spelled (endingPieces path ++ rest))) = pre ++ .phrase ⟨x, path⟩ :: rest := by
      rw [← hnew]
      simp [Piece.text, call_eq]
    have hother : ofProgram ⟨x, path⟩ = false := by simp [ofProgram, hinternal]
    rw [hpieces]
    refine ⟨?_, ?_⟩
    · rw [List.append_assoc] at h
      exact h.exchange_merged fun hmoved => by simp [hprogram _ hmoved] at hother
    · rw [programCalls_append, programCalls_append, programCalls_map_char, programCalls_phrase,
        hother]
      simp [endingPieces]

/-- **Calls that are moved stay standing when some of them are replaced**, and the calls on
variables of the program are those that are not replaced. -/
theorem Standing.exchanged {held : DottedPath → Option (List Char)} {todo : List CallPiece}
    (hcut : IsCut (before ++ todo)) (h : Standing moved (before ++ todo))
    (hprogram : ∀ c, moved c → ofProgram c = true)
    (hheld : ∀ a x, .phrase a ∈ todo → held a = some x → moved a ∧ isIdentifier x ∧
      isInternal (String.ofList x) = true ∧
      (functionName <:+ x → functionName <:+ (hoistBase a).toList)) :
    Standing moved (accessor.pieces (spelled (before ++ exchanged held todo))) ∧
      programCalls (accessor.pieces (spelled (before ++ exchanged held todo))) =
        programCalls before ++ (programCalls todo).filter fun a => (held a).isNone := by
  induction todo generalizing before with
  | nil =>
    have hpieces : accessor.pieces (spelled (before ++ [])) = before ++ [] := hcut
    rw [show Template.exchanged held [] = [] from rfl, hpieces]
    exact ⟨h, by simp⟩
  | cons p todo ih =>
    have hassoc : before ++ p :: todo = (before ++ [p]) ++ todo := by simp
    obtain ⟨hstanding, hcalls⟩ := ih (hassoc ▸ hcut) (hassoc ▸ h)
      fun a x hmem => hheld a x (List.mem_cons_of_mem p hmem)
    have hcons : Template.exchanged held (p :: todo) =
        heldPieces held p ++ Template.exchanged held todo := List.flatMap_cons
    rw [List.append_assoc] at hstanding hcalls
    rw [hcons]
    cases p with
    | literal l => exact ⟨hstanding, hcalls.trans (by simp)⟩
    | char c => exact ⟨hstanding, hcalls.trans (by simp)⟩
    | phrase a =>
      cases hx : held a with
      | none =>
        simp only [heldPieces, hx]
        refine ⟨hstanding, hcalls.trans ?_⟩
        rw [programCalls_append, programCalls_phrase, programCalls_phrase]
        split <;> simp [hx]
      | some x =>
        obtain ⟨hmoved, hident, hinternal, hbase⟩ := hheld a x List.mem_cons_self hx
        have halone := (h before a todo rfl hmoved).1
        -- In front of the rest as it is written now, the pieces before the call are the old ones.
        have hpieces := hcut.pieces_append (halone.noLoneQuote.stayOpen _
          (a.call ++ spelled (Template.exchanged held todo)))
        have htext : spelled (before ++ ([.phrase a] ++ Template.exchanged held todo)) =
            spelled before ++ (a.call ++ spelled (Template.exchanged held todo)) := by
          simp [Piece.text]
        have hnew :
          spelled (before ++ (heldPieces held (.phrase a) ++ Template.exchanged held todo)) =
            spelled before ++ '$' :: (x ++ spelled (accessor.pieces
              (spelled (Template.exchanged held todo)))) := by
          simp [heldPieces, hx]
        rw [htext, hpieces] at hstanding hcalls
        obtain ⟨hstanding', hcalls'⟩ :=
          hstanding.exchange (hpieces ▸ isCut_pieces _) hprogram hmoved
          hident hinternal hbase
        rw [hnew]
        refine ⟨hstanding', hcalls'.trans ?_⟩
        rw [programCalls_append, programCalls_append, programCalls_phrase, programCalls_phrase,
          if_pos (hprogram a hmoved), if_pos (hprogram a hmoved), List.append_assoc,
          List.append_cancel_left_eq] at hcalls
        rw [programCalls_phrase, if_pos (hprogram a hmoved), (List.cons.inj hcalls).2]
        simp [hx]

/-! ## Rounds -/

/-- Settled calls are standing. -/
theorem Settled.standing {repeats owned : DottedPath → Prop} {pieces : List CallPiece}
    (h : Settled repeats owned pieces) (hmoved : ∀ a, moved a → repeats a ∧ owned a) :
    Standing moved pieces := fun before a after heq ha =>
  have hcall := h before a after heq (hmoved a ha).1
  ⟨hcall.1, (hcall.2 (hmoved a ha).2).notCalled⟩

variable {wanted : Wanted} {hoists : List Hoist} {site : Site}

/-- **The calls of an expression stay standing in a round**, and the calls on variables of the
program are those that are not replaced. -/
theorem Standing.rewritten (hnamed : NamedByCall hoists)
    (h : Standing moved (accessor.pieces site.expression.toList))
    (hprogram : ∀ c, moved c → ofProgram c = true)
    (hheld : ∀ a x, heldBy wanted hoists site.shadowed a = some x → moved a) :
    Standing moved (accessor.pieces (rewritten wanted hoists site).toList) ∧
      programCalls (accessor.pieces (rewritten wanted hoists site).toList) =
        (programCalls (accessor.pieces site.expression.toList)).filter fun a =>
          (heldBy wanted hoists site.shadowed a).isNone := by
  have hcut := isCut_pieces site.expression.toList
  rw [toList_rewritten, ← List.nil_append (Template.exchanged _ _)]
  refine Standing.exchanged hcut h hprogram fun a x hmem hx => ?_
  obtain ⟨-, k, hk, rfl, rfl⟩ := exists_of_heldBy hx
  obtain ⟨n, hn⟩ := hnamed k hk
  rw [hn, String.ofList_toList]
  exact ⟨hheld _ _ hx, isIdentifier_candidate (hcut.readable_of_mem hmem) n,
    isInternal_candidate k.call n,
    functionName_of_suffix_candidate⟩

/-- How often a call on a variable of the program occurs. -/
theorem count_programCalls (ha : ofProgram a = true) (expression : String) :
    (programCalls (accessor.pieces expression.toList)).count a =
    (accessor.all expression).count a :=
  List.count_filter ha

/-- Standing calls are kept by rounds, if only calls on variables of the program are moved. -/
theorem keptByRounds_standing (hprogram : ∀ c, moved c → ofProgram c = true) :
    KeptByRounds (Standing moved) moved fun a => ofProgram a = true where
  standsAlone h ha := (h _ _ _ rfl ha).1
  call _ := (settled_phrase _).standing fun _ ha => ⟨ha, ha⟩
  round hnamed h hheld := by
    obtain ⟨hstanding, hcalls⟩ := h.rewritten hnamed hprogram hheld
    refine ⟨hstanding, fun a ha => ?_⟩
    rw [← count_programCalls ha, hcalls, programCalls, List.filter_comm, List.count_filter ha]
    rfl
  counted_of_program a ha := by simp [ofProgram, ha]

end Standing

end ViewCompiler.Template
