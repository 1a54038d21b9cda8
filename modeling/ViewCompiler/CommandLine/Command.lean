import ViewCompiler.CommandLine.Options
import ViewCompiler.FileTree
import ViewCompiler.Project.Config
import ViewCompiler.Text.Blank

/-!
# Commands

What a command line asks for. Each setting is an option of the commands that use it and also a
variable of the environment, which the option overrules; a variable that is empty is not set.
Asking for help needs options that are known, but no usable values.
-/

namespace ViewCompiler.CommandLine

/-! ## Settings from options and variables -/

/-- The values of the variables of the environment. -/
abbrev Environment := String → Option String

/-- The value of a variable that is not empty. -/
def Environment.set? (environment : Environment) (name : String) : Option String :=
  (environment name).filter (!·.isEmpty)

/-- The words for on and off, in any case and between blanks. Blanks alone are off. -/
def switch? (text : String) : Option Bool :=
  let word := (trimBlanks text).toLower
  if ["1", "true", "t", "yes", "y", "on"].contains word then some true
  else if ["0", "false", "f", "no", "n", "off", ""].contains word then some false
  else none

/-- What a command line is read against. -/
structure Surroundings where
  environment : Environment
  files : FileTree
  /-- The folder that relative paths start from. -/
  base : Place

/-- Where a text leads to, as the file system takes it: every name but the last has to be a
folder's, also one that a dot, two dots or nothing comes after. -/
def Surroundings.look (surroundings : Surroundings) (text : String) :
    Except FileError FileTree := do
  if text.isEmpty then throw .missing
  if isPathTooLong text then throw .tooLong
  let files := surroundings.files
  let start := if text.startsWith "/" then [] else surroundings.base
  let place ← (text.toList.splitOn '/').foldlM (fun place name => do
      match ← files.look place with
      | .folder _ => return if name = [] then place else climb place <|
          if name = ['.'] then [] else [String.ofList name]
      | .file _ => throw .notFolder) start
  files.look place

/-- What is at the path that a word is. -/
def Surroundings.lookFor (surroundings : Surroundings) (word : String) :
    Except UsageError (Except FileError FileTree) :=
  if word.toList.contains '\x00' then throw (.unusable word) else return surroundings.look word

/-- A setting that is an option and a variable. -/
structure Setting where
  long : String
  variableName : String

/-- The value of a setting, from the option or else from the variable. -/
def Setting.value? (setting : Setting) (words : Words) (surroundings : Surroundings) :
    Option String :=
  (words.value? setting.long).or (surroundings.environment.set? setting.variableName)

/-- The value of a setting that may not name a file. -/
def Setting.folder? (setting : Setting) (words : Words) (surroundings : Surroundings) :
    Except UsageError (Option String) := do
  let some value := setting.value? words surroundings | return none
  match ← surroundings.lookFor value with
  | .ok (.file _) => throw (.notFolder setting.long value)
  | _ => return some value

/-- The state of a setting that is on or off. -/
def Setting.isOn (setting : Setting) (words : Words) (surroundings : Surroundings) :
    Except UsageError Bool :=
  if words.has setting.long then return true
  else
    match surroundings.environment.set? setting.variableName with
    | none => return false
    | some value =>
      match switch? value with
      | some state => return state
      | none => throw (.notSwitch setting.variableName value)

/-- Where the views are. -/
def viewsSetting : Setting := ⟨"--views-path", "AURYNX_VIEWS_PATH"⟩

/-- Where the compiled views go. -/
def cacheSetting : Setting := ⟨"--cache-path", "AURYNX_CACHE_PATH"⟩

/-- The namespace of component classes. -/
def namespaceSetting : Setting := ⟨"--namespace", "AURYNX_COMPONENT_NAMESPACE"⟩

/-- How the names of views end. -/
def extensionSetting : Setting := ⟨"--extension", "AURYNX_VIEW_EXTENSION"⟩

/-- One level of indentation. -/
def indentSetting : Setting := ⟨"--indent", "AURYNX_INDENT"⟩

/-- Whether the form of each template is shown. -/
def verboseSetting : Setting := ⟨"--verbose", "AURYNX_VERBOSE"⟩

/-- Whether changes are waited for without a build before. -/
def noInitialBuildSetting : Setting := ⟨"--no-initial-build", "AURYNX_NO_INITIAL_BUILD"⟩

/-- All settings. -/
def settings : List Setting :=
  [viewsSetting, cacheSetting, namespaceSetting, extensionSetting, indentSetting, verboseSetting,
    noInitialBuildSetting]

/-- The settings of a project that the options and variables give. -/
def projectOverrides (words : Words) (surroundings : Surroundings) :
    Except UsageError Overrides := do
  let views ← viewsSetting.folder? words surroundings
  let cache ← cacheSetting.folder? words surroundings
  return {
    componentNamespace := namespaceSetting.value? words surroundings
    views
    cache
    extension := extensionSetting.value? words surroundings
    indent := indentSetting.value? words surroundings }

/-! ## Commands -/

/-- A command with its settings. -/
inductive Command where
  /-- Compiles all views; `fresh` removes what is in the cache first. -/
  | build (given : Overrides) (fresh : Bool)
  /-- Compiles all views and then those that change. -/
  | watch (given : Overrides)
  /-- Compiles one template and prints the result. -/
  | compile (template : Place) (given : Overrides)

/-- What a command line asks for. -/
inductive Request where
  | help
  | version
  /-- Runs a command; `verbose` also shows the form of each template. -/
  | run (verbose : Bool) (command : Command)

/-- An option with a value. -/
def valueOption (long : String) : OptionName := ⟨long, none, true⟩

/-- An option without a value. -/
def flagOption (long : String) : OptionName := ⟨long, none, false⟩

/-- The options before a command. -/
def programOptions : List OptionName :=
  [⟨"--verbose", some 'v', false⟩, flagOption "--version", flagOption "--help"]

/-- The options of the commands that work on a project. -/
def projectOptions : List OptionName :=
  [viewsSetting, cacheSetting, namespaceSetting, extensionSetting, indentSetting].map
    (valueOption ·.long)

/-- Fails if there is an argument. -/
def noArguments (words : Words) : Except UsageError Unit :=
  match words.arguments with
  | [] => return ()
  | word :: _ => throw (.extraArgument word)

/-- Reads the words after a command, which may ask for help instead. -/
def readCommand (options : List OptionName) (verbose : Bool) (arguments : List String)
    (command : Words → Except UsageError Command) : Except UsageError Request := do
  let words ← readWords (flagOption "--help" :: options) true arguments
  if words.has "--help" then return .help
  return .run verbose (← command words)

/-- Reads the words after `build`. -/
def buildCommand (surroundings : Surroundings) (words : Words) : Except UsageError Command := do
  let given ← projectOverrides words surroundings
  noArguments words
  return .build given (words.has "--clean")

/-- Reads the words after `watch`. -/
def watchCommand (surroundings : Surroundings) (words : Words) : Except UsageError Command := do
  let given ← projectOverrides words surroundings
  let waits ← noInitialBuildSetting.isOn words surroundings
  noArguments words
  return .watch { given with buildOnStart := if waits then some false else none }

/-- Reads the words after `compile`. The argument has to name a file. -/
def compileCommand (surroundings : Surroundings) (words : Words) : Except UsageError Command := do
  let word :: rest := words.arguments | throw .noFile
  match ← surroundings.lookFor word with
  | .error _ => throw (.fileMissing word)
  | .ok (.folder _) => throw (.notFile word)
  | .ok (.file _) =>
    noArguments { words with arguments := rest }
    return .compile ((Path.ofText word).place surroundings.base) {
      componentNamespace := namespaceSetting.value? words surroundings
      indent := indentSetting.value? words surroundings }

/-- What the first of the options for help and the version asks for. -/
def Words.request? (words : Words) : Option Request :=
  (words.first? ["--help", "--version"]).map fun long =>
    if long = "--help" then .help else .version

/-- Reads a command line. A word in place of the command that is an option, which is possible after
two hyphens alone, is read as one. -/
def readRequest (surroundings : Surroundings) (arguments : List String) :
    Except UsageError Request := do
  let words ← readWords programOptions false arguments
  if let some request := words.request? then return request
  let verbose ← verboseSetting.isOn words surroundings
  match words.arguments with
  | [] => throw .noCommand
  | "build" :: rest =>
    readCommand (flagOption "--clean" :: projectOptions) verbose rest (buildCommand surroundings)
  | "watch" :: rest =>
    readCommand (flagOption noInitialBuildSetting.long :: projectOptions) verbose rest
      (watchCommand surroundings)
  | "compile" :: rest =>
    readCommand
      [valueOption namespaceSetting.long, valueOption indentSetting.long, flagOption "--plain"]
      verbose rest (compileCommand surroundings)
  | word :: rest =>
    let again ← readWords programOptions false (word :: rest)
    match again.request? with
    | some request => return request
    | none => throw (.unknownCommand word)

end ViewCompiler.CommandLine
