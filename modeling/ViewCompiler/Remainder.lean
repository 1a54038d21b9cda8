/-!
# What comes after a start

`remainder? start list` is what is left of a list behind a start, if the list has that start. It is
used for texts, which are lists of characters, and for places, which are lists of names.
-/

namespace ViewCompiler

variable {α : Type} [DecidableEq α]

/-- What is left of a list behind its start. -/
def remainder? : List α → List α → Option (List α)
  | [], list => some list
  | _ :: _, [] => none
  | a :: start, b :: list => if a = b then remainder? start list else none

/-- The start and what is left make up the list. -/
theorem remainder?_eq_some_iff {start list rest : List α} :
    remainder? start list = some rest ↔ start ++ rest = list := by
  induction start generalizing list with
  | nil => simp [remainder?, eq_comm]
  | cons a start ih =>
    cases list with
    | nil => simp [remainder?]
    | cons b list => by_cases h : a = b <;> simp [remainder?, h, ih]

end ViewCompiler
