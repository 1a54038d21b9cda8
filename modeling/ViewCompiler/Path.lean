import ViewCompiler.Remainder

/-!
# Paths

A path is a chain of names from a starting point. Reading one from text drops the empty names
between repeated slashes and the name `.`, which add nothing; the name `..` stays. A place is a
path from the root of the file system, its names from the root down: `Path.place` follows a path
from a place and takes `..` as one step up, so a place never needs that name. A path with the null
character in a name leads nowhere.
-/

namespace ViewCompiler

/-! ## Places -/

/-- The names that lead from the root of the file system to a file or a folder. -/
abbrev Place := List String

/-- The order of places: name by name, and each name by the code points of its characters. -/
def placeLe (a b : Place) : Bool := !decide (b < a)

/-- Follows names from a place, with `..` as one step up. -/
def climb (place : Place) (names : List String) : Place :=
  names.foldl (fun place name => if name = ".." then place.dropLast else place ++ [name]) place

/-- Names other than `..` lead down. -/
theorem climb_eq_append {names : List String} (h : ".." ∉ names) (place : Place) :
    climb place names = place ++ names := by
  induction names generalizing place with
  | nil => simp [climb]
  | cons name names ih =>
    simp only [List.mem_cons, not_or] at h
    have := ih h.2 (place ++ [name])
    simpa [climb, Ne.symm h.1] using this

/-! ## Paths -/

/-- Where a path starts. Exactly two leading slashes name a root of their own. -/
inductive PathStart where
  | here
  | root
  | secondRoot
deriving DecidableEq

/-- The text that a path starts with. -/
def PathStart.mark : PathStart → String
  | .here => ""
  | .root => "/"
  | .secondRoot => "//"

/-- A chain of names from a starting point. -/
structure Path where
  start : PathStart
  names : List String
deriving DecidableEq

/-- Reads a path. -/
def Path.ofText (text : String) : Path :=
  let start :=
    match (text.toList.takeWhile (· == '/')).length with
    | 0 => .here
    | 2 => .secondRoot
    | _ => .root
  ⟨start, ((text.toList.splitOn '/').map String.ofList).filter fun name =>
    name != "" && name != "."⟩

/-- The text of a path; the empty path is a dot. -/
def Path.text (path : Path) : String :=
  match path.start, path.names with
  | .here, [] => "."
  | start, names => start.mark ++ "/".intercalate names

/-- The path of a place. -/
def Path.ofPlace (place : Place) : Path := ⟨.root, place⟩

/-- The path from a base on, or the second path alone if it starts at a root. -/
def Path.append (base path : Path) : Path :=
  match path.start with
  | .here => ⟨base.start, base.names ++ path.names⟩
  | _ => path

/-- The place that a path leads to from a base. -/
def Path.place (base : Place) (path : Path) : Place :=
  match path.start with
  | .here => climb base path.names
  | _ => climb [] path.names

/-- The path has no null character in a name. -/
def Path.isUsable (path : Path) : Bool := path.names.all fun name => !name.toList.contains '\x00'

/-- The path, or itself as an error if it leads nowhere. -/
def Path.checked (path : Path) : Except Path Path :=
  if path.isUsable then .ok path else .error path

/-- The names that lead from one path to another below it. Names are compared as they are spelled,
`..` too. -/
def Path.namesBelow? (folder path : Path) : Option (List String) :=
  if folder.start = path.start then remainder? folder.names path.names else none

/-- The place of a place's path is the place itself, if no name of it is `..`. -/
theorem Path.place_ofPlace {place : Place} (h : ".." ∉ place) (base : Place) :
    (Path.ofPlace place).place base = place := by
  simp [Path.ofPlace, Path.place, climb_eq_append h]

end ViewCompiler
