import ViewCompiler.FileTree.Change
import ViewCompiler.Project.Event
import ViewCompiler.Project.View
import ViewCompiler.Text.Newlines

/-!
# Building a project

A build compiles every view into the cache. Its state is the tree of files and the log, and both
are kept where it ends with an error. A view that cannot be read or whose compiled form cannot be
written is logged and counted, and the others are still compiled; an error of the compiler ends the
build.
-/

namespace ViewCompiler

/-- The state of a build. -/
structure Workspace where
  files : FileTree
  /-- What was logged, in order. -/
  log : List Event

/-- A computation that changes files and logs events, and may end with an error. -/
abbrev Build := ExceptT BuildError (StateM Workspace)

namespace Build

/-- Logs an event. The log takes every event; that what shows it may fail is left out. -/
def report (event : Event) : Build Unit :=
  modify fun workspace => { workspace with log := workspace.log ++ [event] }

/-- Changes the files, or ends with the error. -/
def changing (change : FileTree → Except FileError FileTree) : Build Unit := do
  match change (← get).files with
  | .ok files => modify fun workspace => { workspace with files }
  | .error error => throw (.file error)

/-- Works on the files, also where this ends with an error, and tells how it ends. -/
def trying (work : FileTree → Except FileError Unit × FileTree) :
    Build (Except FileError Unit) := do
  let (result, files) := work (← get).files
  modify fun workspace => { workspace with files }
  return result

/-- Makes a folder and those above it, or ends with the error. -/
def makeFolders (place : Place) : Build Unit := do
  match ← trying (·.makeFolders place) with
  | .ok () => return
  | .error error => throw (.file error)

/-- Tells whether something is at a place. Only a place that is too long cannot be looked at. -/
def has (place : Place) : Build Bool := do
  match (← get).files.look place with
  | .ok _ => return true
  | .error .tooLong => throw (.file .tooLong)
  | .error _ => return false

end Build

open Build

/-! ## Views -/

/-- Reads the text of a file. -/
def readText (files : FileTree) (place : Place) : Except ReadError String :=
  match files.read place with
  | .error error => throw (.file error)
  | .ok content =>
    match String.fromUTF8? content with
    | some text => return String.ofList (Text.unifyNewlines text.toList)
    | none => throw .notText

namespace Project

variable (project : Project)

/-- The place that a path leads to. -/
def locate (path : Path) : Build Place := do
  if path.isUsable then return path.place project.base
  else throw (.unusable path)

/-- Compiles a template with the settings of a project. -/
def compile (template : String) : Except Compile.CompileError Compile.Compiled :=
  Compile.compile template project.componentNamespace project.indent

/-- Compiles a view into the cache; gives the place of its compiled form, or nothing if the view
cannot be read or its compiled form cannot be written. The settings are texts of Unicode
characters, so the compiled form is one and has an encoding. -/
def compileView (view : Place) : Build (Option Place) := do
  let some names := project.namesBelow? view | throw (.notBelow view project.views)
  let title := (Path.mk .here names).text
  match readText (← get).files view with
  | .error cause =>
    report (.failed title cause)
    return none
  | .ok template =>
    match project.compile template with
    | .error error => throw (.template error)
    | .ok compiled =>
      report (.form compiled.strategy)
      let output := project.output names
      match ← trying (·.store output compiled.php.toUTF8) with
      | .error error =>
        report (.failed title (.file error))
        return none
      | .ok () =>
        report (.compiled title)
        return some output

/-- Removes the compiled form of a view; tells whether there was one. -/
def removeView (view : Place) : Build Bool := do
  let some names := project.namesBelow? view | throw (.notBelow view project.views)
  match (← get).files.removeFile (project.output names) with
  | .error .missing => return false
  | .error error => throw (.file error)
  | .ok files =>
    modify fun workspace => { workspace with files }
    report (.removed (Path.mk .here (outputNames project.extension names)).text)
    return true

/-! ## All views -/

/-- The views of the project, in order. -/
def listViews : Build (List Place) := do
  match project.discover (← get).files with
  | .ok views => return views
  | .error .viewsMissing => throw (.viewsMissing project.views)
  | .error .patternRefused => throw (.patternRefused project.extension)
  | .error (.file error) => throw (.file error)

/-- Removes the cache with everything in it, unless the views are in it. -/
def clean : Build Unit := do
  if ← has project.cache then
    if project.cache.isPrefixOf project.views then
      throw (.unsafeClean project.cache project.views)
    changing (·.removeFolder project.cache)

/-- The place of the file that keeps the cache out of version control. -/
def ignoreFile : Place := project.cache ++ [".gitignore"]

/-- Makes the cache and a file in it that keeps it out of version control, if they are not
there. -/
def prepareCache : Build Unit := do
  makeFolders project.cache
  if !(← has project.ignoreFile) then
    changing (·.write project.ignoreFile "*".toUTF8)

/-- The outcome of a build. -/
structure Summary where
  compiled : Nat
  /-- The views that failed, in order. -/
  errors : List Place
deriving DecidableEq

/-- No view failed. -/
def Summary.ok (summary : Summary) : Bool := summary.errors.isEmpty

/-- Compiles views one after the other. -/
def compileViews : List Place → Build Summary
  | [] => return ⟨0, []⟩
  | view :: views => do
    let output ← compileView project view
    let summary ← compileViews views
    match output with
    | some _ => return { summary with compiled := summary.compiled + 1 }
    | none => return { summary with errors := view :: summary.errors }

/-- Compiles all views of the project; `fresh` removes what is in the cache first. -/
def build (fresh : Bool) : Build Summary := do
  let views ← project.listViews
  if fresh then project.clean
  project.prepareCache
  if views.isEmpty then report .nothingToCompile
  project.compileViews views

end Project

end ViewCompiler
