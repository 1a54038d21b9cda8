import ViewCompiler.Compile.Unit
import ViewCompiler.FileTree

/-!
# What a build reports

The events that a build logs, and the causes for which a view or a whole build fails. Views and
their compiled forms are named by the paths from their folders.
-/

namespace ViewCompiler

/-! ## Failures -/

/-- Why a text cannot be read from a file. -/
inductive ReadError where
  | file (error : FileError)
  /-- The content is not UTF-8. -/
  | notText
deriving DecidableEq

/-- What a file error says. -/
def FileError.message : FileError → String
  | .missing => "No such file or directory"
  | .occupied => "File exists"
  | .notFolder => "Not a directory"
  | .isFolder => "Is a directory"
  | .tooLong => "File name too long"

/-- What a read error says. -/
def ReadError.message : ReadError → String
  | .file error => error.message
  | .notText => "The content is not UTF-8"

/-- Why a build ends before its time. -/
inductive BuildError where
  /-- The folder of the views is not there. -/
  | viewsMissing (views : Place)
  /-- The pattern of the extension is refused. -/
  | patternRefused (extension : String)
  /-- Removing the cache would remove the views. -/
  | unsafeClean (cache views : Place)
  /-- The view is not below the folder of the views. -/
  | notBelow (view views : Place)
  /-- The path leads nowhere. -/
  | unusable (path : Path)
  | file (error : FileError)
  | template (error : Compile.CompileError)

/-- The text of a place in quotation marks. -/
def quotedPlace (place : Place) : String := "'" ++ (Path.ofPlace place).text ++ "'"

/-- What is said about a missing folder of views. -/
def viewsMissingMessage (views : Place) : String :=
  "Views directory " ++ quotedPlace views ++ " does not exist"

/-- What is said about a cache that is not removed. -/
def unsafeCleanMessage (cache views : Place) : String :=
  "Refusing to clean " ++ quotedPlace cache ++ ": it contains the views directory " ++
    quotedPlace views

/-! ## Events -/

/-- The levels of events. -/
inductive EventLevel where
  | debug
  | info
  | error
deriving DecidableEq

/-- Something that a build logs. -/
inductive Event where
  /-- A template is compiled in a form. -/
  | form (strategy : Template.Strategy)
  | compiled (view : String)
  | failed (view : String) (cause : ReadError)
  | removed (output : String)
  /-- There are no views. -/
  | nothingToCompile

/-- The level of an event. -/
def Event.level : Event → EventLevel
  | .form _ => .debug
  | .failed .. => .error
  | .compiled _ | .removed _ | .nothingToCompile => .info

/-- What an event says, where `mark` sets off a text in a style. -/
def Event.textWith (mark : String → String → String) : Event → String
  | .form strategy => strategy.message
  | .compiled view => "Compiled " ++ mark "cyan" view
  | .failed view cause =>
    mark "bold red" "Error" ++ " compiling view " ++ view ++ ": " ++ cause.message
  | .removed output => "Removed " ++ mark "cyan" output
  | .nothingToCompile => "No templates found, nothing to compile."

/-- A text between the tags of a style. -/
def tagged (style text : String) : String := "[" ++ style ++ "]" ++ text ++ "[/]"

/-- The message of an event, with tags. -/
def Event.message (event : Event) : String := event.textWith tagged

/-- The message of an event, without tags. -/
def Event.plain (event : Event) : String := event.textWith fun _ text => text

end ViewCompiler
