import ViewCompiler.Proofs.Expression.Merging

/-!
# Calls on the values of calls

An accessor call may be the argument of another, as in `data_get(data_get($v, 'p'), 'q')`. Only the
inner call is a piece of the text; the outer one becomes a piece when a variable takes the place of
the inner one. `Occurrence.layers` are all calls around a place, from the inside to the outside,
and `placed` are the places of the pieces. Where a variable takes the place of one call, the calls
around the other places stay where they are (`outer?_exchange_after`, `outer?_exchange_before`).
-/

namespace ViewCompiler.Expression

open Text (mark?)

/-- A call of the accessor function on a variable, or on the value of such a call: the variable and
the paths, from the inside to the outside. -/
structure NestedCall where
  name : List Char
  paths : List (List Char)
deriving DecidableEq

/-- A call on a variable. -/
def DottedPath.nested (a : DottedPath) : NestedCall := ⟨a.name, [a.path]⟩

/-- A call in a text: what stands before it, and what behind it. -/
structure Occurrence where
  before : List Char
  call : NestedCall
  after : List Char
deriving DecidableEq

/-! ## The calls around a call -/

/-- Reads what stands behind the argument in a call, with the path. -/
def callEnding? (cs : List Char) :
    Option (List Char × List Char) := (mark? ", '" cs).bind callPath?

/-- The ending of a call is read exactly where it is written, with a path in it. -/
theorem callEnding?_eq_some_iff {cs path rest : List Char} :
    callEnding? cs = some (path, rest) ↔
      path ≠ [] ∧ (∀ c ∈ path, isPathChar c) ∧ cs = callEnding path ++ rest := by
  rw [callEnding?, Option.bind_eq_some_iff]
  constructor
  · rintro ⟨left, hmark, hpath⟩
    refine ⟨(isPath_of_callPath? hpath).1, (isPath_of_callPath? hpath).2, ?_⟩
    rw [← mark?_eq_some_iff.mp hmark, ← append_of_callPath? hpath]
    simp [callEnding]
  · rintro ⟨hne, hpath, rfl⟩
    refine ⟨path ++ '\'' :: ')' :: rest, mark?_eq_some_iff.mpr (by simp [callEnding]), ?_⟩
    exact callPath?_append hne hpath rest

namespace Occurrence

/-- The call whose argument a call is. -/
def outer? (o : Occurrence) : Option Occurrence := do
  let before ← o.before.dropSuffix? callOpening
  let (path, after) ← callEnding? o.after
  return ⟨before, ⟨o.call.name, o.call.paths ++ [path]⟩, after⟩

/-- A call is around an occurrence exactly if its opening and its ending stand beside it. -/
theorem outer?_eq_some_iff {o outer : Occurrence} :
    o.outer? = some outer ↔ ∃ path, path ≠ [] ∧ (∀ c ∈ path, isPathChar c) ∧
      o.before = outer.before ++ callOpening ∧ o.after = callEnding path ++ outer.after ∧
      outer.call = ⟨o.call.name, o.call.paths ++ [path]⟩ := by
  constructor
  · intro h
    obtain ⟨before, hbefore, h⟩ := Option.bind_eq_some_iff.mp h
    obtain ⟨⟨path, after⟩, hafter, h⟩ := Option.bind_eq_some_iff.mp h
    obtain rfl := Option.some.inj h
    obtain ⟨opening, hopening, heq⟩ := List.dropSuffix?_eq_some_iff.mp hbefore
    obtain rfl := eq_of_beq heq
    obtain ⟨hne, hpath, hrest⟩ := callEnding?_eq_some_iff.mp hafter
    exact ⟨path, hne, hpath, hopening, hrest, rfl⟩
  · rintro ⟨path, hne, hpath, hbefore, hafter, hcall⟩
    have hopening : o.before.dropSuffix? callOpening = some outer.before :=
      List.dropSuffix?_eq_some_iff.mpr ⟨callOpening, hbefore, beq_self_eq_true _⟩
    have hending : callEnding? o.after = some (path, outer.after) :=
      callEnding?_eq_some_iff.mpr ⟨hne, hpath, hafter⟩
    simp only [outer?, hopening, hending, Option.bind_eq_bind, Option.bind_some, ← hcall]
    rfl

/-- The call around an occurrence starts before it. -/
theorem length_before_lt {o outer : Occurrence} (h : o.outer? = some outer) :
    outer.before.length < o.before.length := by
  obtain ⟨path, -, -, hbefore, -⟩ := outer?_eq_some_iff.mp h
  rw [hbefore, List.length_append]
  exact Nat.lt_add_of_pos_right (by decide)

/-- A call and the calls around it, from the inside to the outside. -/
def layers (o : Occurrence) : List Occurrence :=
  match _h : o.outer? with
  | none => [o]
  | some outer => o :: outer.layers
termination_by o.before.length
decreasing_by exact length_before_lt (by assumption)

/-- An occurrence with no call around it is its only layer. -/
theorem layers_of_none {o : Occurrence} (h : o.outer? = none) : o.layers = [o] := by
  rw [layers]
  split <;> simp_all

/-- The layers of an occurrence are itself and those of the call around it. -/
theorem layers_of_some {o outer : Occurrence} (h : o.outer? = some outer) :
    o.layers = o :: outer.layers := by
  rw [layers]
  split <;> simp_all

/-- The innermost layer of an occurrence is itself. -/
theorem exists_layers_eq (o : Occurrence) : ∃ rest, o.layers = o :: rest := by
  cases h : o.outer? with
  | none => exact ⟨[], layers_of_none h⟩
  | some outer => exact ⟨outer.layers, layers_of_some h⟩

/-! ## The calls around another place -/

variable {u m x rest : List Char} {a : DottedPath}

/-- The calls around a place before the place of an exchange end before it. -/
theorem outer?_exchange_after {before : List Char} {call : NestedCall} {outer : Occurrence}
    (h : (Occurrence.mk before call (m ++ '$' :: (x ++ rest))).outer? = some outer) :
    ∃ m', outer.after = m' ++ '$' :: (x ++ rest) ∧
      (Occurrence.mk before call (m ++ (a.call ++ rest))).outer? =
        some ⟨outer.before, outer.call, m' ++ (a.call ++ rest)⟩ := by
  obtain ⟨path, hne, hpath, hbefore, hafter, hcall⟩ := outer?_eq_some_iff.mp h
  obtain ⟨m', rfl⟩ := prefix_of_callEnding_prefix hpath ⟨outer.after, hafter.symm⟩
  rw [List.append_assoc] at hafter
  refine ⟨m', (List.append_cancel_left hafter).symm, outer?_eq_some_iff.mpr
    ⟨path, hne, hpath, hbefore, ?_, hcall⟩⟩
  rw [List.append_assoc]

/-- The calls around a place behind the place of an exchange start behind it, unless the variable
is called as the accessor function. -/
theorem outer?_exchange_before {call : NestedCall} {after : List Char} {outer : Occurrence}
    (hx : isIdentifier x) (hstops : StopsAt isIdentifierChar m) (hne : m ≠ [])
    (hcalled : functionName <:+ x → ¬ ['('] <+: m)
    (h : (Occurrence.mk (u ++ '$' :: (x ++ m)) call after).outer? = some outer) :
    ∃ m', m = m' ++ callOpening ∧ outer.before = u ++ '$' :: (x ++ m') ∧
      (Occurrence.mk (u ++ (a.call ++ m)) call after).outer? =
        some ⟨u ++ (a.call ++ m'), outer.call, outer.after⟩ := by
  obtain ⟨path, hpathne, hpath, hbefore, hafter, hcall⟩ := outer?_eq_some_iff.mp h
  rcases callOpening_of_suffix hx hstops hne ⟨outer.before, hbefore.symm⟩ with
    ⟨m', rfl⟩ | ⟨hname, rfl⟩
  · refine ⟨m', rfl, ?_, outer?_eq_some_iff.mpr ⟨path, hpathne, hpath, ?_, hafter, hcall⟩⟩
    · have hassoc : u ++ '$' :: (x ++ (m' ++ callOpening)) =
          (u ++ '$' :: (x ++ m')) ++ callOpening := by simp
      exact (List.append_cancel_right (hassoc.symm.trans hbefore)).symm
    · simp
  · exact absurd (List.prefix_refl _) (hcalled hname)

end Occurrence

/-! ## The places of pieces -/

/-- The calls among the pieces of a text, in order, where other text stands before and behind the
pieces. -/
def placed (before : List Char) (pieces : List CallPiece) (after : List Char) : List Occurrence :=
  match pieces with
  | [] => []
  | p :: pieces =>
    (p.phrase?.map fun a => ⟨before, a.nested, spelled pieces ++ after⟩).toList ++
      placed (before ++ p.text DottedPath.call) pieces after

/-- The places in two lists of pieces are those in the first and then those in the second. -/
theorem placed_append (before : List Char) (pieces pieces' : List CallPiece) (after : List Char) :
    placed before (pieces ++ pieces') after =
      placed before pieces (spelled pieces' ++ after) ++
        placed (before ++ spelled pieces) pieces' after := by
  induction pieces generalizing before with
  | nil => simp [placed]
  | cons p pieces ih => simp [placed, ih]

/-- The first piece is placed in front of what the others spell. -/
theorem placed_phrase (before : List Char) (a : DottedPath) (pieces : List CallPiece)
    (after : List Char) :
    placed before (.phrase a :: pieces) after =
      ⟨before, a.nested, spelled pieces ++ after⟩ :: placed (before ++ a.call) pieces after := rfl

/-- The places around a call are those before it, its own, and those behind it. -/
theorem placed_append_phrase (before : List Char) (pieces : List CallPiece) (a : DottedPath)
    (pieces' : List CallPiece) (after : List Char) :
    placed before (pieces ++ .phrase a :: pieces') after =
      placed before pieces (a.call ++ (spelled pieces' ++ after)) ++
        ⟨before ++ spelled pieces, a.nested, spelled pieces' ++ after⟩ ::
          placed (before ++ (spelled pieces ++ a.call)) pieces' after := by
  rw [placed_append, placed_phrase, spelled_cons, Piece.text, List.append_assoc, List.append_assoc]

/-- Characters place no call. -/
@[simp] theorem placed_map_char (before cs after : List Char) :
    placed before (cs.map .char) after = [] := by
  induction cs generalizing before with
  | nil => rfl
  | cons c cs ih => exact ih _

/-- The ending of a call places no call. -/
@[simp] theorem placed_endingPieces (before path after : List Char) :
    placed before (endingPieces path) after = [] := rfl

/-- The calls in a text, of the pieces that it is cut into and around them. -/
def occurrencesIn (cs : List Char) : List Occurrence :=
  (placed [] (accessor.pieces cs) []).flatMap Occurrence.layers

/-- The calls in a text around one of its pieces: those before it, it and the calls around it, and
those behind it. -/
theorem occurrencesIn_of_pieces {cs : List Char} {pre post : List CallPiece} {a : DottedPath}
    (h : accessor.pieces cs = pre ++ .phrase a :: post) :
    occurrencesIn cs =
      (placed [] pre (a.call ++ spelled post)).flatMap Occurrence.layers ++
        ((Occurrence.mk (spelled pre) a.nested (spelled post)).layers ++
          (placed (spelled pre ++ a.call) post []).flatMap Occurrence.layers) := by
  rw [occurrencesIn, h, placed_append_phrase]
  simp

end ViewCompiler.Expression
