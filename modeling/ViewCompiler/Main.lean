import ViewCompiler.CommandLine.Run

/-!
# The program

The outer layer: it takes the files that a command line works on from the disk, runs the command
line on the tree of them, and writes the differences back.
-/

namespace ViewCompiler

open CommandLine

/-! ## From the disk -/

/-- The text of a place's path. -/
def diskPath (place : Place) : String := (Path.ofPlace place).text

/-- Takes what is at a place from the disk, files with their content where `whole` asks for it.
Links to folders are left out. -/
partial def takeTree (whole : Bool) (place : Place) : IO (Option FileTree) := do
  try
    let real ← IO.FS.realPath (diskPath place)
    if ← real.isDir then
      if real.toString != diskPath place then return none
      let entries ← (← real.readDir).toList.filterMapM fun entry => do
        return (← takeTree whole (place ++ [entry.fileName])).map (entry.fileName, ·)
      return some (.folder entries)
    else if whole then return some (.file (← IO.FS.readBinFile real))
    else return some (.file .empty)
  catch _ => return none

/-- Tells whether a file, a folder or nothing is at a place, without what is in it. -/
def takeKind (place : Place) : IO (Option FileTree) := do
  try
    let real ← IO.FS.realPath (diskPath place)
    return some (if ← real.isDir then .folder [] else .file .empty)
  catch _ => return none

/-- Puts a part of the disk into a tree, under the folders above it. -/
def graft (place : Place) (part : Option FileTree) (files : FileTree) : FileTree :=
  match files.makeFolders place.dropLast with
  | (.error _, _) => files
  | (.ok (), made) =>
    match made.change (fun _ => return part) place with
    | .error _ => files
    | .ok grafted => if part.isSome then grafted else files

/-- Adds the kinds of a place and of those above it to a tree that does not know them. -/
def addKinds (files : FileTree) (place : Place) : IO FileTree := do
  (List.range (place.length + 1)).foldlM (fun files n => do
    let above := place.take n
    if files.has above then return files
    else return graft above (← takeKind above) files) files

/-- Everything that a project works on. -/
def takeProject (project : Project) : IO FileTree := do
  let mut files := FileTree.folder []
  for place in [project.base, project.views, project.cache] do
    files ← addKinds files place
  if files.hasFolder project.cache then
    files := graft project.cache (← takeTree false project.cache) files
  if files.hasFolder project.views then
    files := graft project.views (← takeTree true project.views) files
  return files

/-- Everything that a command works on. -/
def takeCommand (base : Place) : Command → IO FileTree
  | .build given _ | .watch given =>
    match (Config.override {} given).openProject base with
    | .ok project => takeProject project
    | .error _ => return .folder []
  | .compile template _ => do
    let files ← addKinds (.folder []) (template.dropLast)
    return graft template (← takeTree true template) files

/-! ## To the disk -/

/-- Takes away what is at a place. -/
def dropTree (place : Place) : FileTree → IO Unit
  | .file _ => IO.FS.removeFile (diskPath place)
  | .folder _ => IO.FS.removeDirAll (diskPath place)

/-- Makes the disk hold the second tree where it holds the first. -/
partial def putTree (place : Place) (before after : Option FileTree) : IO Unit :=
  match before, after with
  | none, none => return ()
  | some tree, none => dropTree place tree
  | some (.file old), some (.file new) =>
    if old.data = new.data then return () else IO.FS.writeBinFile (diskPath place) new
  | _, some (.file content) => IO.FS.writeBinFile (diskPath place) content
  | before, some (.folder entries) => do
    let old :=
      match before with
      | some (.folder old) => old
      | _ => []
    if before.isNone then IO.FS.createDirAll (diskPath place)
    for (name, tree) in entries do
      putTree (place ++ [name]) (old.lookup name) (some tree)
    for (name, tree) in old do
      if (entries.lookup name).isNone then dropTree (place ++ [name]) tree

/-! ## The command line -/

/-- Follows the changes of a project, looking for them again and again. -/
partial def follow (project : Project) (known : FileTree) : IO UInt32 := do
  IO.sleep 200
  let files ← takeProject project
  let (result, workspace) := (project.followAll (changesBetween known files)).run ⟨files, []⟩
  putTree [] (some files) (some workspace.files)
  IO.eprint (eventLines false workspace.log)
  match result with
  | .ok _ => follow project workspace.files
  | .error error =>
    IO.eprintln (buildErrorMessage error)
    return 1

/-- The tree on which a command line is read: the kinds of all places that its words and variables
may name. -/
def takeWords (base : Place) (words : List String) : IO FileTree :=
  words.foldlM (fun files word =>
    let value := (nameAndValue word).2.getD word
    addKinds files ((Path.ofText value).place base)) (.folder [])

/-- Runs a command line on the disk. -/
def runOnDisk (arguments : List String) : IO UInt32 := do
  let base := (Path.ofText (← IO.currentDir).toString).place []
  let given ← settings.filterMapM fun setting => do
    return (← IO.getEnv setting.variableName).map (setting.variableName, ·)
  let environment : Environment := fun name => given.lookup name
  let words ← takeWords base ("." :: arguments ++ given.map (·.2))
  let files ←
    match readRequest ⟨environment, words, base⟩ arguments with
    | .ok (.run _ command) => takeCommand base command
    | _ => pure words
  let outcome := CommandLine.runRequest ⟨environment, files, base⟩
    (readRequest ⟨environment, words, base⟩ arguments)
  putTree [] (some files) (some outcome.files)
  IO.print outcome.output
  IO.eprint outcome.notes
  match outcome.ending with
  | .exit code => return code.toUInt32
  | .follow project => follow project outcome.files

end ViewCompiler

/-- Runs the program. -/
def main (arguments : List String) : IO UInt32 := do
  try ViewCompiler.runOnDisk arguments
  catch error =>
    IO.eprintln error
    return 1
