import ViewCompiler.Compile.Context
import ViewCompiler.Path

/-!
# Settings of a project

Where the views of a project are, where their compiled form goes, and how they are compiled. The
paths of the settings may be relative; a `Project` has the places that they lead to.
-/

namespace ViewCompiler

/-- The settings of a project. -/
structure Config where
  componentNamespace : String := Compile.defaultNamespace
  views : Path := .ofText "resources/views"
  cache : Path := .ofText "cache/views"
  /-- How the names of views end. -/
  extension : String := ".anx.php"
  /-- All views are compiled before the first change is waited for. -/
  buildOnStart : Bool := true
  indent : String := Compile.defaultIndent

/-- Settings that are given, others that are not. -/
structure Overrides where
  componentNamespace : Option String := none
  views : Option String := none
  cache : Option String := none
  extension : Option String := none
  buildOnStart : Option Bool := none
  indent : Option String := none

/-- The settings with those that are given in place of the old ones. -/
def Config.override (config : Config) (given : Overrides) : Config where
  componentNamespace := given.componentNamespace.getD config.componentNamespace
  views := (given.views.map Path.ofText).getD config.views
  cache := (given.cache.map Path.ofText).getD config.cache
  extension := given.extension.getD config.extension
  buildOnStart := given.buildOnStart.getD config.buildOnStart
  indent := given.indent.getD config.indent

/-- The settings with the paths that lead from a base to the folders, without `..`. -/
def Config.resolve (base : Place) (config : Config) : Config :=
  { config with
    views := .ofPlace (config.views.place base)
    cache := .ofPlace (config.cache.place base) }

/-- The settings, or the first path of them that leads nowhere as an error. -/
def Config.checked (config : Config) : Except Path Config := do
  return { config with views := ← config.views.checked, cache := ← config.cache.checked }

/-- Resolves the settings against the place that a root leads to from here. A path that leads
nowhere, that of the root or one of the settings, is an error. -/
def Config.resolveFrom (here : Place) (root : Path) (config : Config) : Except Path Config := do
  let base := (← root.checked).place here
  return (← config.checked).resolve base

/-- Resolving fails at paths that lead nowhere only. -/
theorem Config.resolveFrom_eq_ok_iff {here : Place} {root : Path} {config resolved : Config} :
    config.resolveFrom here root = .ok resolved ↔
      (root.isUsable = true ∧ config.views.isUsable = true ∧ config.cache.isUsable = true) ∧
        config.resolve (root.place here) = resolved := by
  unfold Config.resolveFrom Config.checked Path.checked
  cases root.isUsable <;> cases config.views.isUsable <;> cases config.cache.isUsable <;>
    simp [bind, Except.bind, pure, Except.pure]

/-- The places and settings that views are compiled by. -/
structure Project where
  /-- The folder that relative paths start from. -/
  base : Place
  views : Place
  cache : Place
  extension : String
  componentNamespace : String
  indent : String

/-- The project with these settings whose relative paths start from a base. -/
def Config.project (base : Place) (config : Config) : Project where
  base := base
  views := config.views.place base
  cache := config.cache.place base
  extension := config.extension
  componentNamespace := config.componentNamespace
  indent := config.indent

/-- The project with these settings, unless a path of them leads nowhere. -/
def Config.openProject (base : Place) (config : Config) : Except Path Project :=
  return (← config.checked).project base

end ViewCompiler
