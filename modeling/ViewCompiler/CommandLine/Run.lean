import ViewCompiler.CommandLine.Command
import ViewCompiler.Console.ControlSequence
import ViewCompiler.Console.Message
import ViewCompiler.Project.Watch

/-!
# Running a command line

What a command line does: the files it leaves, what it prints, and how it ends. A command line
whose words are wrong exits with 2, a command that fails with 1, and everything else with 0; the
command that follows changes does not exit by itself.

A command says what it does in messages, and these name places. A place whose name makes a message
that cannot be shown fails the command there, and what was done before stays.
-/

namespace ViewCompiler.CommandLine

/-! ## Outcomes -/

/-- How a command line ends. -/
inductive Ending where
  | exit (code : Nat)
  /-- The changes of a project are followed from here on. -/
  | follow (project : Project)

/-- What a command has left and printed so far. -/
structure Progress where
  files : FileTree
  output : String := ""
  /-- What is printed apart from the output: the log, and problems. -/
  notes : String := ""

/-- What a command line leaves and prints, and how it ends. -/
structure Outcome extends Progress where
  ending : Ending

/-- A command at work, which may end with a problem. What it has left and printed stays. -/
abbrev Session := ExceptT String (StateM Progress)

/-- Runs a command on files. A problem is printed and ends it with 1. -/
def Session.outcome (session : Session Ending) (files : FileTree) : Outcome :=
  match session.run { files } with
  | (.ok ending, progress) => { progress with ending }
  | (.error problem, progress) =>
    { progress with notes := progress.notes ++ problem ++ "\n", ending := .exit 1 }

/-! ## Texts -/

/-- What is said about an error of the compiler. -/
def compileErrorMessage : Compile.CompileError → String
  | .parse error => "The template cannot be parsed: " ++ error.message
  | .emit _ => "The template has no compiled form"

/-- What is said about an error that ends a build. -/
def buildErrorMessage : BuildError → String
  | .viewsMissing views => viewsMissingMessage views
  | .patternRefused extension => "The extension '" ++ extension ++ "' makes no pattern"
  | .unsafeClean cache views => unsafeCleanMessage cache views
  | .notBelow view views => quotedPlace view ++ " is not below " ++ quotedPlace views
  | .unusable path => "The path '" ++ path.text ++ "' has a null character"
  | .file error => error.message
  | .template error => compileErrorMessage error

/-- The events that are shown, a line each, without their tags. An event is always shown: a place
whose name would make a broken message does not end a command here, as it does in `say`. -/
def eventLines (verbose : Bool) (events : List Event) : String :=
  let shown := events.filter fun event => verbose || event.level != .debug
  String.join (shown.map fun event => event.plain ++ "\n")

/-- The message before a build. -/
def buildingMessage (project : Project) : String :=
  "🔨 Compiling views in " ++ tagged "cyan" (Path.ofPlace project.views).text ++ "..."

/-- The message after a build. -/
def builtMessage (project : Project) (summary : Project.Summary) : String :=
  let counts := "compiled=" ++ toString summary.compiled
  let place := "out=" ++ (Path.ofPlace project.cache).text
  if summary.ok then "✅ Build complete (" ++ counts ++ ", " ++ place ++ ")"
  else "❌ Build finished with errors (" ++ counts ++ ", failed=" ++
    toString summary.errors.length ++ ", " ++ place ++ ")"

/-- The message before the build that comes before following changes. -/
def startingMessage : String := "🔁 Performing initial compilation..."

/-- The message after that build. -/
def startedMessage (summary : Project.Summary) : String :=
  "✅ Initial compilation finished (" ++ toString summary.compiled ++ " compiled, " ++
    toString summary.errors.length ++ " failed)"

/-- The message before changes are followed. -/
def followingMessage (project : Project) : String :=
  tagged "bold cyan" "Aurynx" ++ ": Watching " ++
    tagged "bold" (Path.ofPlace project.views).text ++ " for changes..."

/-- What is printed when help is asked for. -/
def helpText : String :=
  "Usage: [--verbose] build [OPTIONS]\n" ++
  "       [--verbose] watch [OPTIONS]\n" ++
  "       [--verbose] compile [--namespace TEXT] [--indent TEXT] [--plain] FILE\n" ++
  "Options of build and watch:\n" ++
  "  --views-path DIRECTORY  Where the templates are (default: resources/views).\n" ++
  "  --cache-path DIRECTORY  Where the compiled views go (default: cache/views).\n" ++
  "  --namespace TEXT        The namespace of component classes.\n" ++
  "  --extension TEXT        How the names of templates end (default: .anx.php).\n" ++
  "  --indent TEXT           One level of indentation (default: two spaces).\n" ++
  "  --clean                 build: remove the cache first.\n" ++
  "  --no-initial-build      watch: wait for changes at once.\n"

/-- What is printed when the version is asked for. -/
def versionText : String := "0.1.0\n"

/-! ## Commands -/

/-- Prints a message, or ends with the reason why it cannot be shown. -/
def say (message : String) : Session Unit := do
  match Console.shown message with
  | .ok line => modify fun progress => { progress with output := progress.output ++ line ++ "\n" }
  | .error error => throw error.message

/-- Builds a project and prints the events. -/
def buildProject (project : Project) (verbose fresh : Bool) : Session Project.Summary := do
  let (result, workspace) := (project.build fresh).run ⟨(← get).files, []⟩
  modify fun progress =>
    { progress with
      files := workspace.files
      notes := progress.notes ++ eventLines verbose workspace.log }
  match result with
  | .ok summary => return summary
  | .error error => throw (buildErrorMessage error)

/-- Builds a project and says so. -/
def runBuild (project : Project) (verbose fresh : Bool) : Session Ending := do
  say (buildingMessage project)
  let summary ← buildProject project verbose fresh
  say (builtMessage project summary)
  return .exit (if summary.ok then 0 else 1)

/-- Starts to follow the changes of a project, after a build if it is asked for. -/
def runWatch (project : Project) (verbose buildFirst : Bool) : Session Ending := do
  if buildFirst then
    say startingMessage
    say (startedMessage (← buildProject project verbose false))
  else
    match (← get).files.look project.views with
    | .ok (.folder _) => pure ()
    | .error .tooLong => throw FileError.tooLong.message
    | _ => throw (viewsMissingMessage project.views)
  say (followingMessage project)
  return .follow project

/-- Compiles one template and prints the result, for a program to read. -/
def runCompile (config : Config) (verbose : Bool) (template : Place) : Session Ending := do
  match readText (← get).files template with
  | .error error => throw ("Could not read " ++ quotedPlace template ++ ": " ++ error.message)
  | .ok text =>
    match Compile.compile text config.componentNamespace config.indent with
    | .error error => throw (compileErrorMessage error)
    | .ok compiled =>
      modify fun progress =>
        { progress with
          output := progress.output ++ Console.printable compiled.php
          notes := progress.notes ++ eventLines verbose [.form compiled.strategy] }
      return .exit 0

/-- The project with settings, or the end of the command where a path of them leads nowhere. -/
def openProject (base : Place) (config : Config) : Session Project :=
  match config.openProject base with
  | .ok project => return project
  | .error path => throw (buildErrorMessage (.unusable path))

/-- Runs a command. -/
def runCommand (base : Place) (verbose : Bool) : Command → Session Ending
  | .build given fresh => do
    runBuild (← openProject base (Config.override {} given)) verbose fresh
  | .watch given => do
    let config := Config.override {} given
    runWatch (← openProject base config) verbose config.buildOnStart
  | .compile template given => runCompile (Config.override {} given) verbose template

/-- Does what a command line asks for. -/
def runRequest (surroundings : Surroundings) : Except UsageError Request → Outcome
  | .error error =>
    { files := surroundings.files
      notes := error.message ++ "\n"
      ending := .exit error.exitCode }
  | .ok .help => { files := surroundings.files, output := helpText, ending := .exit 0 }
  | .ok .version => { files := surroundings.files, output := versionText, ending := .exit 0 }
  | .ok (.run verbose command) =>
    (runCommand surroundings.base verbose command).outcome surroundings.files

/-- Runs a command line. -/
def run (surroundings : Surroundings) (arguments : List String) : Outcome :=
  runRequest surroundings (readRequest surroundings arguments)

end ViewCompiler.CommandLine
