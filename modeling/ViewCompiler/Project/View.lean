import ViewCompiler.FileTree
import ViewCompiler.Glob
import ViewCompiler.Project.Config

/-!
# Views

A view is a file whose name ends in the extension and is longer than it. Its compiled form has the
same way from the cache as the view from the folder of the views, and a name that ends in `.php`
instead of the extension. `Project.discover` finds the views of a project; where the extension has
no signs of patterns these are all of them (`isListed_eq_isView`).
-/

namespace ViewCompiler

/-! ## Names -/

/-- The name is that of a view. -/
def isView (extension name : String) : Bool :=
  extension.length < name.length && extension.toList.isSuffixOf name.toList

/-- The name of a view's compiled form. Without an extension nothing is left of the name. -/
def outputName (extension name : String) : String :=
  if extension.isEmpty then ".php"
  else String.ofList (name.toList.take (name.length - extension.length)) ++ ".php"

/-- The names that lead from the cache to a view's compiled form; `names` lead to the view. -/
def outputNames (extension : String) (names : List String) : List String :=
  names.dropLast ++ [outputName extension (names.getLastD "")]

/-- The path of a view's compiled form, if the view is below the folder of the views. -/
def compiledPath? (extension : String) (views cache view : Path) : Option Path :=
  (views.namesBelow? view).map fun names =>
    { cache with names := cache.names ++ outputNames extension names }

/-! ## Places -/

/-- The names that lead from the folder of the views to a place. -/
def Project.namesBelow? (project : Project) (view : Place) : Option (List String) :=
  remainder? project.views view

/-- The place of a view's compiled form; `names` lead from the folder of the views to the view. -/
def Project.output (project : Project) (names : List String) : Place :=
  project.cache ++ outputNames project.extension names

/-- A view below the folder of the views is at the place, as far as the names say. -/
def Project.owns (project : Project) (place : Place) : Bool :=
  match project.namesBelow? place with
  | none | some [] => false
  | some (_ :: _) => isView project.extension (place.getLastD "")

/-! ## The pattern of an extension -/

/-- The parts between slashes of the pattern that views are looked for by, which is a star before
the extension. -/
def patternParts (extension : String) : List (List Char) :=
  (('*' :: extension.toList).splitOn '/').filter fun part => part != [] && part != ['.']

/-- The pattern has two stars beside other signs. -/
def isPatternRefused (extension : String) : Bool :=
  (patternParts extension).any fun part =>
    part != ['*', '*'] && (Text.cutAt? ['*', '*'] part).isSome

/-- The name is listed among the views: it is a view's, and the pattern accepts it. Two stars alone
stand for folders, so they list no view. -/
def isListed (extension name : String) : Bool :=
  isView extension name && extension != "*" &&
    (Glob.ofText ('*' :: extension.toList)).accepts name.toList

/-- An extension of plain characters lists all views. -/
theorem isListed_eq_isView {extension : String} (h : ∀ c ∈ extension.toList, isPlain c = true)
    (name : String) : isListed extension name = isView extension name := by
  have hstar : extension ≠ "*" := by
    rintro rfl
    have := h '*' (by decide)
    simp [isPlain] at this
  have hglob : Glob.ofText ('*' :: extension.toList) = .many :: extension.toList.map .literal := by
    rw [Glob.ofText, Glob.ofText_eq_map h]
  rw [isListed, hglob]
  by_cases hv : isView extension name = true
  · have hs := hv
    rw [isView, Bool.and_eq_true, List.isSuffixOf_iff_suffix] at hs
    simp [hv, hstar, (Glob.accepts_many_map_literal _ _).mpr hs.2]
  · simp [hv]

/-- Why views cannot be listed. -/
inductive DiscoverError where
  /-- The folder of the views is not there. -/
  | viewsMissing
  /-- The pattern of the extension is refused. -/
  | patternRefused
  /-- The folder of the views cannot be looked for. -/
  | file (error : FileError)
deriving DecidableEq

/-- The views of a project, in order. -/
def Project.discover (project : Project) (files : FileTree) :
    Except DiscoverError (List Place) :=
  match files.look project.views with
  | .ok (.folder entries) =>
    if isPatternRefused project.extension then throw .patternRefused
    else
      let names := (FileTree.folder entries).files
      return (names.filter fun names => isListed project.extension (names.getLastD "")).map
        (project.views ++ ·)
  | .error .tooLong => throw (.file .tooLong)
  | _ => throw .viewsMissing

end ViewCompiler
