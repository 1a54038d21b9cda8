import ViewCompiler.Project.Build

/-!
# Following changes

When files change, the compiled forms of the views among them are brought up to date: a view that
was added or modified is compiled, and the compiled form of one that was deleted is removed.
-/

namespace ViewCompiler

/-- How a file changed. -/
inductive ChangeKind where
  | added
  | modified
  | deleted
deriving DecidableEq

/-- A change of the file at a path. -/
structure Change where
  kind : ChangeKind
  path : Path
deriving DecidableEq

/-- The order of changes: by the texts of their paths. -/
def changeLe (a b : Change) : Bool := !decide (b.path.text < a.path.text)

namespace Project

variable (project : Project)

/-- Brings the compiled form of a changed view up to date. -/
def follow (kind : ChangeKind) (view : Place) : Build Unit := do
  match kind with
  | .deleted => discard (project.removeView view)
  | .added | .modified => discard (project.compileView view)

/-- Follows those among the changes that are of views, one after the other; gives their number. -/
def followEach : List Change → Build Nat
  | [] => return 0
  | change :: changes => do
    let place ← project.locate change.path
    if project.owns place then
      project.follow change.kind place
      return (← followEach changes) + 1
    else followEach changes

/-- Follows those among the changes that are of views, in the order of their paths; gives their
number. -/
def followAll (changes : List Change) : Build Nat :=
  project.followEach (changes.mergeSort changeLe)

end Project

/-- The changes of files that lead from one tree to another. -/
def changesBetween (before after : FileTree) : List Change :=
  let gone := before.files.filter (!after.hasFile ·)
  let kept := after.files.filterMap fun place =>
    match before.content? place, after.content? place with
    | none, _ => some (Change.mk .added (.ofPlace place))
    | some old, some new =>
      if old.data = new.data then none else some ⟨.modified, .ofPlace place⟩
    | some _, none => none
  gone.map (fun place => ⟨.deleted, .ofPlace place⟩) ++ kept

end ViewCompiler
