/-!
# Fresh names

The local variables that the compiler adds to a unit have distinct names. A name is made from a
base: the base itself, or the base with the least number from 2 on that makes it a name not taken
yet. `reserve` takes the name.
-/

namespace ViewCompiler

/-- The names that are taken in a unit, in the order in which they were. -/
abbrev Names := List String

/-- The candidates for a name: the base, then the base with 2, 3 and so on. -/
def candidate (base : String) : Nat → String
  | 0 => base
  | n + 1 => base ++ "_" ++ toString (n + 2)

/-- The first candidate that is not taken. Among one more candidate than there are taken names, one
is free. -/
def fresh (taken : Names) (base : String) : String :=
  (((List.range (taken.length + 1)).map (candidate base)).find? (!taken.contains ·)).getD base

/-- Takes the first free candidate. -/
def reserve (base : String) (taken : Names) : String × Names :=
  let name := fresh taken base
  (name, taken ++ [name])

end ViewCompiler
