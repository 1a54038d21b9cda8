import ViewCompiler.Proofs.Expression.Exchange
import ViewCompiler.Template.Hoist

/-!
# Calls of an expression replaced by variables

`held` says which calls of an expression are replaced and by which variable. The pieces with the
variables in place of those calls spell the new text (`spelled_exchanged`). Replacing the calls
from the last to the first leaves all pieces before a call and the call itself as they were, so
whatever one replacement keeps is kept by all (`written_induction`).

`Settled` is what deduplication needs of the calls that occur more than once: each stands by
itself, and those on the variables of loops leave no call behind when a variable takes their place.
It is kept by a replacement (`Settled.exchange`).
-/

namespace ViewCompiler.Template

open Expression

/-! ## Replacing all calls that are held -/

/-- A call as it is written: the variable that holds its value, or the call itself. -/
def heldText (held : DottedPath → Option (List Char)) (a : DottedPath) : List Char :=
  match held a with
  | some x => '$' :: x
  | none => a.call

/-- A piece with the variable in its place, if it is a call that is held. -/
def heldPieces (held : DottedPath → Option (List Char)) : CallPiece → List CallPiece
  | .phrase a =>
    match held a with
    | some x => variablePieces x
    | none => [.phrase a]
  | p => [p]

/-- Pieces with variables in place of the calls that are held. -/
def exchanged (held : DottedPath → Option (List Char)) (pieces : List CallPiece) :
    List CallPiece :=
  pieces.flatMap (heldPieces held)

section Held

variable {held : DottedPath → Option (List Char)}

/-- What pieces spell with variables in place of the calls that are held. -/
theorem spelled_exchanged (pieces : List CallPiece) :
    spelled (exchanged held pieces) = pieces.flatMap (Piece.text (heldText held)) := by
  induction pieces with
  | nil => rfl
  | cons p pieces ih =>
    have hp : spelled (heldPieces held p) = p.text (heldText held) := by
      cases p with
      | literal l => simp [heldPieces, Piece.text]
      | char c => simp [heldPieces, Piece.text]
      | phrase a =>
        cases h : held a <;> simp [heldPieces, heldText, Piece.text, h]
    rw [List.flatMap_cons, ← ih, ← hp, ← spelled_append]
    rfl

/-- The calls that are left are those that are not held. -/
theorem phrases_exchanged (pieces : List CallPiece) :
    (exchanged held pieces).filterMap Piece.phrase? =
      (pieces.filterMap Piece.phrase?).filter fun a => (held a).isNone := by
  have hchars : ∀ x : List Char, (variablePieces x).filterMap Piece.phrase? = [] := fun x => by
    simp [variablePieces, Piece.phrase?]
  induction pieces with
  | nil => rfl
  | cons p pieces ih =>
    rw [exchanged, List.flatMap_cons, List.filterMap_append]
    rw [exchanged] at ih
    rw [ih]
    cases p with
    | literal l => rfl
    | char c => rfl
    | phrase a =>
      cases h : held a with
      | none => simp [heldPieces, Piece.phrase?, h]
      | some x => simp [heldPieces, Piece.phrase?, h, hchars]

/-- What is written instead of pieces goes on with an identifier only if they do. -/
theorem stopsAt_exchanged {pieces : List CallPiece}
    (h : StopsAt isIdentifierChar (spelled pieces)) :
    StopsAt isIdentifierChar (spelled (exchanged held pieces)) := by
  cases pieces with
  | nil => exact h
  | cons p pieces =>
    rw [spelled_exchanged, List.flatMap_cons]
    rw [spelled_cons] at h
    cases p with
    | literal l => exact stopsAt_cons.mpr (stopsAt_cons.mp h)
    | char c => exact stopsAt_cons.mpr (stopsAt_cons.mp h)
    | phrase a =>
      rw [Piece.text, call_eq] at h
      exact absurd (stopsAt_cons.mp h) (by decide)

/-- **What one replacement keeps is kept by all**: the calls are replaced from the last to the
first, and at each of them the text in front of it is the old one. -/
theorem written_induction {rel : List Char → List Char → Prop} (hrefl : ∀ cs, rel cs cs)
    (htrans : ∀ a b c, rel a b → rel b c → rel a c) {before todo : List CallPiece}
    (hstep : ∀ pre a after x, before ++ todo = pre ++ .phrase a :: after → held a = some x →
      rel (spelled pre ++ (a.call ++ spelled (exchanged held after)))
        (spelled pre ++ '$' :: (x ++ spelled (exchanged held after)))) :
    rel (spelled (before ++ todo)) (spelled (before ++ exchanged held todo)) := by
  induction todo generalizing before with
  | nil => exact hrefl _
  | cons p todo ih =>
    have hassoc : before ++ p :: todo = (before ++ [p]) ++ todo := by simp
    have hrest : rel (spelled (before ++ p :: todo))
        (spelled (before ++ [p] ++ exchanged held todo)) := by
      rw [hassoc]
      exact ih fun pre a after x heq => hstep pre a after x (hassoc.trans heq)
    refine htrans _ _ _ hrest ?_
    have hcons : exchanged held (p :: todo) = heldPieces held p ++ exchanged held todo :=
      List.flatMap_cons
    rw [hcons]
    cases p with
    | literal l => rw [List.append_assoc]; exact hrefl _
    | char c => rw [List.append_assoc]; exact hrefl _
    | phrase a =>
      cases h : held a with
      | none => simp only [heldPieces, h]; rw [List.append_assoc]; exact hrefl _
      | some x =>
        have := hstep before a todo x rfl h
        simpa [heldPieces, h, Piece.text] using this

end Held

/-! ## The calls after an exchange -/

/-- A call of the pieces with a variable among them stands before the variable or behind it, since
the variable is made of characters. -/
theorem exists_call_exchange {before after pre post : List CallPiece} {c : DottedPath}
    {x : List Char}
    (heq : before ++ (variablePieces x ++ after) = pre ++ .phrase c :: post) :
    (∃ m, before = pre ++ .phrase c :: m ∧ post = m ++ (variablePieces x ++ after)) ∨
      ∃ m, pre = before ++ (variablePieces x ++ m) ∧ after = m ++ .phrase c :: post := by
  rcases List.append_eq_append_iff.mp heq with ⟨k, rfl, hk⟩ | ⟨m, rfl, hm⟩
  · right
    rcases List.append_eq_append_iff.mp hk with ⟨m, rfl, hm⟩ | ⟨m, hm, hpost⟩
    · exact ⟨m, rfl, hm⟩
    · cases m with
      | nil => exact ⟨[], by simpa using hm.symm, by simpa using hpost.symm⟩
      | cons p m =>
        obtain ⟨rfl, -⟩ := List.cons.inj hpost
        have hmem : .phrase c ∈ variablePieces x := by rw [hm]; simp
        simp [variablePieces] at hmem
  · left
    cases m with
    | nil =>
      have hhead := congrArg List.head? hm
      simp [variablePieces] at hhead
    | cons p m =>
      rw [List.cons_append] at hm
      obtain ⟨rfl, rfl⟩ := List.cons.inj hm
      exact ⟨m, rfl, rfl⟩

/-! ## Settled expressions -/

/-- Every call of the pieces that is repeated stands by itself, and if it is owned, a variable with
the name for its value that takes its place is part of no other call. -/
def Settled (repeated owned : DottedPath → Prop) (pieces : List CallPiece) : Prop :=
  ∀ before a after, pieces = before ++ .phrase a :: after → repeated a →
    StandsAlone before (spelled after) ∧
      (owned a → Inert (spelled before) (hoistBase a).toList (spelled after))

section Settled

variable {repeated owned : DottedPath → Prop}

/-- A settled call that is repeated stands by itself. -/
theorem Settled.standsAlone {pieces : List CallPiece} (h : Settled repeated owned pieces) :
    ∀ before a after, pieces = before ++ .phrase a :: after → repeated a →
      StandsAlone before (spelled after) :=
  fun before a after heq ha => (h before a after heq ha).1

/-- **A variable that takes the place of a settled call leaves the other calls settled.** -/
theorem Settled.exchange {before after : List CallPiece} {a : DottedPath} {x : List Char}
    (hcut : IsCut (before ++ .phrase a :: after))
    (h : Settled repeated owned (before ++ .phrase a :: after)) (hrepeated : repeated a)
    (howned : owned a) (hx : isIdentifier x)
    (hbase : functionName <:+ x → functionName <:+ (hoistBase a).toList) :
    IsCut (before ++ (variablePieces x ++ after)) ∧
      Settled repeated owned (before ++ (variablePieces x ++ after)) := by
  obtain ⟨halone, hinert⟩ := h before a after rfl hrepeated
  have hinert := hinert howned
  have hcut' := isCut_exchange hcut halone.stops hx
    ⟨hinert.notArgument, fun hname => hinert.notCalled (hbase hname)⟩
  refine ⟨hcut', fun pre c post heq hc => ?_⟩
  rcases exists_call_exchange heq with ⟨m, rfl, rfl⟩ | ⟨m, rfl, rfl⟩
  · obtain ⟨halone', hinert'⟩ := h pre c (m ++ .phrase a :: after) (by simp) hc
    have hold : spelled (m ++ .phrase a :: after) =
        spelled m ++ (a.call ++ spelled after) := by
      rw [spelled_append, spelled_cons]
      rfl
    have hnew : spelled (m ++ (variablePieces x ++ after)) =
        spelled m ++ '$' :: (x ++ spelled after) := by simp
    rw [hold] at halone' hinert'
    rw [hnew]
    exact ⟨halone'.exchange_after, fun hown => (hinert' hown).exchange_after⟩
  · obtain ⟨halone', hinert'⟩ := h (before ++ .phrase a :: m) c post (by simp) hc
    have hne := halone.spelled_ne_nil
    have hstop : StopsAt isIdentifierChar (spelled m) := by
      have hstop := halone.stops
      rw [spelled_append] at hstop
      exact (stopsAt_append_iff hne).mp hstop
    refine ⟨halone'.exchange_before hx hne, fun hown => ?_⟩
    have hinert' := hinert' hown
    refine ⟨fun hopening => ?_, hinert'.notCalled⟩
    rw [spelled_append, spelled_append, spelled_variablePieces] at hopening
    rcases callOpening_of_suffix hx hstop hne hopening with hsuffix | ⟨hname, hparen⟩
    · refine hinert'.notArgument (hsuffix.trans ?_)
      rw [spelled_append, spelled_cons, ← List.append_assoc]
      exact List.suffix_append _ _
    · refine absurd ?_ (hinert.notCalled (hbase hname))
      rw [spelled_append, hparen]
      exact List.prefix_append _ _

/-- **Settled pieces stay settled when calls are replaced** that are repeated and owned. -/
theorem Settled.exchanged {held : DottedPath → Option (List Char)} {before todo : List CallPiece}
    (hcut : IsCut (before ++ todo)) (h : Settled repeated owned (before ++ todo))
    (hheld : ∀ a x, .phrase a ∈ todo → held a = some x → repeated a ∧ owned a ∧ isIdentifier x ∧
      (functionName <:+ x → functionName <:+ (hoistBase a).toList)) :
    IsCut (before ++ exchanged held todo) ∧
      Settled repeated owned (before ++ exchanged held todo) := by
  induction todo generalizing before with
  | nil => exact ⟨hcut, h⟩
  | cons p todo ih =>
    have hassoc : before ++ p :: todo = (before ++ [p]) ++ todo := by simp
    obtain ⟨hcut', hsettled'⟩ := ih (hassoc ▸ hcut) (hassoc ▸ h)
      fun a x hmem => hheld a x (List.mem_cons_of_mem p hmem)
    rw [List.append_assoc, List.singleton_append] at hcut' hsettled'
    have hcons : Template.exchanged held (p :: todo) =
        heldPieces held p ++ Template.exchanged held todo := List.flatMap_cons
    rw [hcons]
    cases p with
    | literal l => exact ⟨hcut', hsettled'⟩
    | char c => exact ⟨hcut', hsettled'⟩
    | phrase a =>
      cases hx : held a with
      | none => simpa only [heldPieces, hx] using ⟨hcut', hsettled'⟩
      | some x =>
        obtain ⟨hrepeated, howned, hident, hbase⟩ := hheld a x List.mem_cons_self hx
        simp only [heldPieces, hx]
        exact hsettled'.exchange hcut' hrepeated howned hident hbase

end Settled

end ViewCompiler.Template
