/-!
# Lists with one entry for each key

Attributes and named slots are kept in the order of their first appearance, and a later entry takes
the place of an earlier one with the same key. `putBy` enters one value, `collectBy` a whole list.
-/

namespace ViewCompiler

variable {α κ : Type} [DecidableEq κ]

/-- Enters a value: in place of the entry with its key, or at the end. -/
def putBy (key : α → κ) (value : α) : List α → List α
  | [] => [value]
  | entry :: entries =>
    if key entry = key value then value :: entries else entry :: putBy key value entries

/-- Enters the values one after the other. -/
def collectBy (key : α → κ) (values : List α) : List α :=
  values.foldl (fun entries value => putBy key value entries) []

/-- The keys after a value is entered: those before, and its own if it is new. -/
theorem map_putBy (key : α → κ) (value : α) (entries : List α) :
    (putBy key value entries).map key =
      if key value ∈ entries.map key then entries.map key
      else entries.map key ++ [key value] := by
  induction entries with
  | nil => simp [putBy]
  | cons entry entries ih =>
    by_cases h : key entry = key value
    · simp [putBy, h]
    · have h' : key value ≠ key entry := fun e => h e.symm
      by_cases hm : key value ∈ entries.map key <;>
        simp_all [putBy]

end ViewCompiler
