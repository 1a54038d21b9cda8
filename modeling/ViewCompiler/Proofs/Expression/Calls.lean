import Mathlib.Data.List.TakeWhile
import Mathlib.Tactic.Tauto
import ViewCompiler.Expression.Accessor

/-!
# How accessor calls are read

Facts about the readers of identifiers and accessor calls that do not depend on where in an
expression they are used. A reader of a phrase stops at a character that cannot go on with it, so
what it reads is the same whatever comes later (`accessor?_append`). The only dollar sign of a call
is the one of its variable and its only opening parenthesis the one after the function's name.
-/

namespace ViewCompiler.Expression

open Text (mark? append_of_mark?)

/-! ## Where a run of characters ends -/

/-- The text does not go on with a character of the class. -/
def StopsAt (p : Char → Bool) (cs : List Char) : Prop := ∀ c ∈ cs.head?, p c = false

/-- An empty text does not go on. -/
theorem stopsAt_nil (p : Char → Bool) : StopsAt p [] := by simp [StopsAt]

/-- A text goes on or not by its first character. -/
theorem stopsAt_cons {p : Char → Bool} {c : Char} {cs : List Char} :
    StopsAt p (c :: cs) ↔ p c = false := by simp [StopsAt]

/-- A text goes on or not by its start. -/
theorem stopsAt_append_iff {p : Char → Bool} {cs rest : List Char} (hne : cs ≠ []) :
    StopsAt p (cs ++ rest) ↔ StopsAt p cs := by
  cases cs with
  | nil => exact absurd rfl hne
  | cons c cs => rw [List.cons_append, stopsAt_cons, stopsAt_cons]

/-- What is left behind a run does not go on with the run. -/
theorem stopsAt_dropWhile (p : Char → Bool) (cs : List Char) : StopsAt p (cs.dropWhile p) := by
  intro c hc
  cases h : p c with
  | false => rfl
  | true =>
    have hhead := List.head?_dropWhile_not p cs
    rw [Option.mem_def.mp hc] at hhead
    simp [h] at hhead

/-- A run in front of a text that does not go on with it is the whole run. -/
theorem takeWhile_append_stop {p : Char → Bool} {run rest : List Char} (hrun : ∀ c ∈ run, p c)
    (hrest : StopsAt p rest) : (run ++ rest).takeWhile p = run := by
  rw [List.takeWhile_append_of_pos hrun]
  cases rest with
  | nil => simp
  | cons c cs => simp [stopsAt_cons.mp hrest]

/-- Behind a run in front of a text that does not go on with it stands the text. -/
theorem dropWhile_append_stop {p : Char → Bool} {run rest : List Char} (hrun : ∀ c ∈ run, p c)
    (hrest : StopsAt p rest) : (run ++ rest).dropWhile p = rest := by
  rw [List.dropWhile_append_of_pos hrun]
  cases rest with
  | nil => simp
  | cons c cs => simp [stopsAt_cons.mp hrest]

/-- What a test finds of every character of a text. -/
theorem forall_mem_of_all {p : Char → Prop} [DecidablePred p] {cs : List Char}
    (h : (cs.all fun c => decide (p c)) = true) : ∀ c ∈ cs, p c :=
  fun c hc => of_decide_eq_true (List.all_eq_true.mp h c hc)

/-! ## Identifiers -/

/-- The text is an identifier. -/
def isIdentifier : List Char → Bool
  | [] => false
  | c :: cs => isIdentifierStart c && cs.all isIdentifierChar

/-- A character that can start an identifier can go on with one. -/
theorem isIdentifierChar_of_start {c : Char} (h : isIdentifierStart c) : isIdentifierChar c := by
  simp only
    [isIdentifierStart, isIdentifierChar, isWordChar, Char.isAlphanum, Bool.or_eq_true] at *
  tauto

/-- The characters of an identifier. -/
theorem isIdentifierChar_of_mem {name : List Char} (h : isIdentifier name) {c : Char}
    (hc : c ∈ name) : isIdentifierChar c := by
  cases name with
  | nil => simp at hc
  | cons d ds =>
    simp only [isIdentifier, Bool.and_eq_true, List.all_eq_true] at h
    rcases List.mem_cons.mp hc with rfl | hc
    · exact isIdentifierChar_of_start h.1
    · exact h.2 c hc

/-- A character that cannot stand in an identifier is another one. -/
theorem ne_of_isIdentifierChar {c d : Char} (hc : isIdentifierChar c)
    (hd : isIdentifierChar d = false) : c ≠ d := by
  rintro rfl
  rw [hc] at hd
  cases hd

/-- A character of an identifier is no quote. -/
theorem isQuote_of_isIdentifierChar {c : Char} (h : isIdentifierChar c) : isQuote c = false := by
  cases hc : isQuote c with
  | false => rfl
  | true =>
    simp only [isQuote, Bool.or_eq_true, beq_iff_eq] at hc
    rcases hc with rfl | rfl <;> exact absurd h (by decide)

/-- An identifier is read up to the first character that cannot go on with it. -/
theorem identifier?_append {name rest : List Char} (h : isIdentifier name)
    (hrest : StopsAt isIdentifierChar rest) : identifier? (name ++ rest) = some (name, rest) := by
  cases name with
  | nil => simp [isIdentifier] at h
  | cons c cs =>
    simp only [isIdentifier, Bool.and_eq_true, List.all_eq_true] at h
    rw [List.cons_append, identifier?, if_pos h.1, takeWhile_append_stop h.2 hrest,
      dropWhile_append_stop h.2 hrest]

/-- What is read as an identifier is one, and the rest does not go on with it. -/
theorem isIdentifier_of_identifier? {cs name rest : List Char}
    (h : identifier? cs = some (name, rest)) :
    isIdentifier name ∧ StopsAt isIdentifierChar rest := by
  cases cs with
  | nil => simp [identifier?] at h
  | cons c cs =>
    simp only [identifier?] at h
    split at h
    · obtain ⟨rfl, rfl⟩ := Prod.mk.inj (Option.some.inj h)
      refine ⟨?_, stopsAt_dropWhile _ _⟩
      simp_all [isIdentifier]
    · simp at h

/-- A variable is read up to the first character that cannot go on with its name. -/
theorem variableName?_append {name rest : List Char} (h : isIdentifier name)
    (hrest : StopsAt isIdentifierChar rest) :
    variableName? ('$' :: (name ++ rest)) = some (name, rest) := identifier?_append h hrest

/-- A variable starts with a dollar sign. -/
theorem variableName?_eq_none {c : Char} (h : c ≠ '$') (cs : List Char) :
    variableName? (c :: cs) = none := by
  rw [variableName?]
  simpa using h

/-- What is read as a variable's name is an identifier, and the rest does not go on with it. -/
theorem isIdentifier_of_variableName? {cs name rest : List Char}
    (h : variableName? cs = some (name, rest)) :
    isIdentifier name ∧ StopsAt isIdentifierChar rest := by
  unfold variableName? at h
  split at h
  · exact isIdentifier_of_identifier? h
  · simp at h

/-! ## Calls -/

/-- What stands before the variable in an accessor call. -/
def callOpening : List Char := ['d', 'a', 't', 'a', '_', 'g', 'e', 't', '(']

/-- What stands behind the variable in an accessor call with a path. -/
def callEnding (path : List Char) : List Char := ',' :: ' ' :: '\'' :: (path ++ ['\'', ')'])

/-- The parts of an accessor call. -/
theorem call_eq (a : DottedPath) :
    a.call = callOpening ++ '$' :: (a.name ++ callEnding a.path) := by
  simp [DottedPath.call, accessorCall, accessorFunction, callOpening, callEnding]

/-- The call is one that can be read: its variable has a name and its path the characters of
paths. -/
structure DottedPath.Readable (a : DottedPath) : Prop where
  isIdentifier : isIdentifier a.name
  path_ne_nil : a.path ≠ []
  isPath : ∀ c ∈ a.path, isPathChar c

/-- A character that cannot stand in a path is another one. -/
theorem ne_of_isPathChar {c d : Char} (hc : isPathChar c) (hd : isPathChar d = false) : c ≠ d := by
  rintro rfl
  rw [hc] at hd
  cases hd

/-- What `mark?` finds is the mark and what stands behind it. -/
theorem mark?_eq_some_iff {mark : String} {cs rest : List Char} :
    mark? mark cs = some rest ↔ mark.toList ++ rest = cs := remainder?_eq_some_iff

/-- A path in quotes is read up to the parenthesis that ends its call. -/
theorem callPath?_append {path : List Char} (hne : path ≠ []) (hpath : ∀ c ∈ path, isPathChar c)
    (rest : List Char) : callPath? (path ++ '\'' :: ')' :: rest) = some (path, rest) := by
  have hstop : StopsAt isPathChar ('\'' :: ')' :: rest) := stopsAt_cons.mpr (by decide)
  have hmark : mark? "')" ('\'' :: ')' :: rest) = some rest := mark?_eq_some_iff.mpr rfl
  obtain ⟨c, cs, rfl⟩ := List.exists_cons_of_ne_nil hne
  rw [callPath?, takeWhile_append_stop hpath hstop, dropWhile_append_stop hpath hstop, hmark]

/-- What is read as a path is one. -/
theorem isPath_of_callPath? {cs path rest : List Char} (h : callPath? cs = some (path, rest)) :
    path ≠ [] ∧ ∀ c ∈ path, isPathChar c := by
  unfold callPath? at h
  split at h
  · rename_i c path' rest' hpath hrest
    obtain ⟨rfl, rfl⟩ := Prod.mk.inj (Option.some.inj h)
    refine ⟨List.cons_ne_nil _ _, fun d hd => ?_⟩
    rw [← hpath] at hd
    exact List.mem_takeWhile_imp hd
  · simp at h

/-- **A call is read whatever stands behind it.** -/
theorem accessor?_append {a : DottedPath} (h : a.Readable) (rest : List Char) :
    accessor? (a.call ++ rest) = some (a, rest) := by
  have hstop : StopsAt isIdentifierChar (callEnding a.path ++ rest) :=
    stopsAt_cons.mpr (by decide)
  have hopening : mark? (accessorFunction ++ "(") (a.call ++ rest) =
      some ('$' :: (a.name ++ (callEnding a.path ++ rest))) := by
    rw [mark?_eq_some_iff, call_eq]
    simp [accessorFunction, callOpening]
  have hending : mark? ", '" (callEnding a.path ++ rest) =
      some (a.path ++ '\'' :: ')' :: rest) := by
    rw [mark?_eq_some_iff]
    simp [callEnding]
  rw [accessor?, hopening]
  simp only [Option.bind_eq_bind, Option.bind_some, variableName?_append h.isIdentifier hstop,
    hending, callPath?_append h.path_ne_nil h.isPath]
  rfl

/-- A call is spelled like no other one. -/
theorem DottedPath.Readable.eq_of_call_eq {a b : DottedPath} (ha : a.Readable) (hb : b.Readable)
    (h : a.call = b.call) : a = b := by
  have hread := accessor?_append ha []
  rw [h, accessor?_append hb] at hread
  exact (Prod.mk.inj (Option.some.inj hread)).1.symm

/-- What is read as a call can be read. -/
theorem readable_of_accessor? {cs : List Char} {a : DottedPath} {rest : List Char}
    (h : accessor? cs = some (a, rest)) : a.Readable := by
  obtain ⟨cs₁, _, h⟩ := Option.bind_eq_some_iff.mp h
  obtain ⟨⟨name, cs₂⟩, h₂, h⟩ := Option.bind_eq_some_iff.mp h
  obtain ⟨cs₃, _, h⟩ := Option.bind_eq_some_iff.mp h
  obtain ⟨⟨path, cs₄⟩, h₄, h⟩ := Option.bind_eq_some_iff.mp h
  obtain ⟨rfl, rfl⟩ := Prod.mk.inj (Option.some.inj h)
  have hpath := isPath_of_callPath? h₄
  exact ⟨(isIdentifier_of_variableName? h₂).1, hpath.1, hpath.2⟩

/-- A call is read from a text exactly if the text starts with it and it can be read. -/
theorem accessor?_eq_some_iff {cs : List Char} {a : DottedPath} {rest : List Char} :
    accessor? cs = some (a, rest) ↔ a.Readable ∧ a.call ++ rest = cs :=
  ⟨fun h => ⟨readable_of_accessor? h, append_of_accessor? h⟩,
    fun ⟨h, heq⟩ => heq ▸ accessor?_append h rest⟩

end ViewCompiler.Expression
