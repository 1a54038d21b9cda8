import ViewCompiler.Text.Cut

/-!
# Options

The words of a command line are options and arguments. An option has a long name, and takes the
rest of its word after an equals sign or the next word as its value, whatever that is; a flag takes
none. A word of short flags is a hyphen and their letters. Two hyphens alone end the options.
-/

namespace ViewCompiler.CommandLine

/-- An option that a command knows. -/
structure OptionName where
  /-- The long name with its hyphens. -/
  long : String
  /-- The letter of a flag after one hyphen. -/
  short : Option Char := none
  takesValue : Bool

/-- Why a command line cannot be used. -/
inductive UsageError where
  | unknownOption (word : String)
  /-- The option takes a value and none is given. -/
  | valueMissing (option : String)
  /-- The flag takes no value and one is given. -/
  | valueGiven (option : String)
  /-- The value of a variable stands for neither on nor off. -/
  | notSwitch (variableName value : String)
  /-- The value names a file where a folder is needed. -/
  | notFolder (option value : String)
  | noCommand
  | unknownCommand (word : String)
  | noFile
  /-- The argument names no file. -/
  | fileMissing (word : String)
  /-- The argument names a folder where a file is needed. -/
  | notFile (word : String)
  | extraArgument (word : String)
  /-- The word is used as a path and has a null character. -/
  | unusable (word : String)
deriving DecidableEq

/-- What is said about a command line that cannot be used. -/
def UsageError.message : UsageError → String
  | .unknownOption word => "No such option: " ++ word
  | .valueMissing option => "Option '" ++ option ++ "' requires an argument."
  | .valueGiven option => "Option '" ++ option ++ "' does not take a value."
  | .notSwitch name value => name ++ ": '" ++ value ++ "' is not a valid boolean."
  | .notFolder option value => "Invalid value for '" ++ option ++ "': '" ++ value ++ "' is a file."
  | .noCommand => "Missing command."
  | .unknownCommand word => "No such command '" ++ word ++ "'."
  | .noFile => "Missing argument 'FILE'."
  | .fileMissing word => "Invalid value for 'FILE': '" ++ word ++ "' does not exist."
  | .notFile word => "Invalid value for 'FILE': '" ++ word ++ "' is a directory."
  | .extraArgument word => "Got unexpected extra argument (" ++ word ++ ")"
  | .unusable word => "The path '" ++ word ++ "' has a null character"

/-- The code that a command line that cannot be used exits with: 1 where the file system refuses a
path, and 2 where the words are wrong. -/
def UsageError.exitCode : UsageError → Nat
  | .unusable _ => 1
  | _ => 2

/-- An option as it is given, by its long name, with its value. -/
structure GivenOption where
  long : String
  value : Option String
deriving DecidableEq

/-- The words of a command line, sorted out. -/
structure Words where
  /-- The options in the order given. -/
  options : List GivenOption
  arguments : List String
deriving DecidableEq

/-- Adds an option in front. -/
def Words.withOption (long : String) (value : Option String) (words : Words) : Words :=
  { words with options := ⟨long, value⟩ :: words.options }

/-- Adds an argument in front. -/
def Words.withArgument (word : String) (words : Words) : Words :=
  { words with arguments := word :: words.arguments }

/-- The long name in a word, and the value after an equals sign. -/
def nameAndValue (word : String) : String × Option String :=
  match Text.cutAt? ['='] word.toList with
  | some (name, value) => (String.ofList name, some (String.ofList value))
  | none => (word, none)

/-- The flags that the letters of a word stand for. -/
def shortFlags (known : List OptionName) (letters : List Char) :
    Except UsageError (List GivenOption) :=
  letters.mapM fun letter =>
    match known.find? (·.short == some letter) with
    | some option => return ⟨option.long, none⟩
    | none => throw (.unknownOption (String.ofList ['-', letter]))

/-- What the start of a word makes it. -/
inductive WordKind where
  | argument
  /-- Two hyphens alone. -/
  | mark
  /-- A word that may be a long option only. -/
  | long
  /-- A word that may be short flags too; the letters after the hyphen. -/
  | short (letters : List Char)

/-- The kind of a word. A hyphen alone is an argument. -/
def wordKind (word : String) : WordKind :=
  match word.toList with
  | ['-', '-'] => .mark
  | '-' :: '-' :: _ => .long
  | '-' :: letter :: letters => .short (letter :: letters)
  | _ => .argument

/-- Sorts words out. Where options and arguments are not `mixed`, the first argument ends the
options. -/
def readWords (known : List OptionName) (mixed : Bool) : List String → Except UsageError Words
  | [] => return ⟨[], []⟩
  | word :: words =>
    match wordKind word with
    | .mark => return ⟨[], words⟩
    | .argument =>
      if mixed then return (← readWords known mixed words).withArgument word
      else return ⟨[], word :: words⟩
    | kind =>
      let (long, value) := nameAndValue word
      match known.find? (·.long == long), value, kind with
      | some option, some value, _ =>
        if option.takesValue then
          return (← readWords known mixed words).withOption option.long value
        else throw (.valueGiven option.long)
      | some option, none, _ =>
        if option.takesValue then
          match words with
          | [] => throw (.valueMissing option.long)
          | value :: words => return (← readWords known mixed words).withOption option.long value
        else return (← readWords known mixed words).withOption option.long none
      | none, _, .short letters => do
        let flags ← shortFlags known letters
        let rest ← readWords known mixed words
        return { rest with options := flags ++ rest.options }
      | none, _, _ => throw (.unknownOption word)

/-- The option is given. -/
def Words.has (words : Words) (long : String) : Bool := words.options.any (·.long == long)

/-- The value of an option that was given last. -/
def Words.value? (words : Words) (long : String) : Option String :=
  (words.options.reverse.find? (·.long == long)).bind (·.value)

/-- The option among some that was given first. -/
def Words.first? (words : Words) (longs : List String) : Option String :=
  (words.options.find? fun option => longs.contains option.long).map (·.long)

end ViewCompiler.CommandLine
