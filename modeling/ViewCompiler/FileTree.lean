import ViewCompiler.Path

/-!
# Trees of files

A file system is a tree of folders and files. `find?` gives what is at a place and `content?` the
content of the file there; `look` also says why nothing can be found. `FileTree.files` lists the
places that hold a file, each once and in order (`mem_files`).

Names and paths have a greatest length. Nothing can be put where it is exceeded, so nothing is
there either, and all that the limits change is what is said about such a place.
-/

namespace ViewCompiler

/-- A file with its content, or a folder with its entries. Of two entries with one name the first
counts. -/
inductive FileTree where
  | file (content : ByteArray)
  | folder (entries : List (String × FileTree))

/-- Why a place cannot be used. -/
inductive FileError where
  /-- Nothing is at the place. -/
  | missing
  /-- Something is at the place already. -/
  | occupied
  /-- A file is where a folder has to be. -/
  | notFolder
  /-- A folder is where a file has to be. -/
  | isFolder
  /-- A name or the whole path is longer than it may be. -/
  | tooLong
deriving DecidableEq

/-! ## Limits -/

/-- A name has at most 255 bytes. -/
def isNameTooLong (name : String) : Bool := 255 < name.utf8ByteSize

/-- A path has at most 4095 bytes. -/
def isPathTooLong (path : String) : Bool := 4095 < path.utf8ByteSize

/-- The path from the root of the file system to a place is longer than it may be. -/
def isPlaceTooLong (place : Place) : Bool := isPathTooLong (Path.ofPlace place).text

namespace FileTree

/-! ## Looking -/

/-- What is at a place, if anything is. -/
def find? : FileTree → Place → Option FileTree
  | tree, [] => some tree
  | .file _, _ :: _ => none
  | .folder entries, name :: place =>
    match entries.lookup name with
    | some tree => tree.find? place
    | none => none

/-- What stops on the way to a place where nothing is. -/
def obstacle : FileTree → Place → FileError
  | .file _, _ => .notFolder
  | .folder _, [] => .missing
  | .folder entries, name :: place =>
    match entries.lookup name with
    | some tree => tree.obstacle place
    | none => if isNameTooLong name then .tooLong else .missing

/-- Looks what is at a place. -/
def look (tree : FileTree) (place : Place) : Except FileError FileTree :=
  match tree.find? place with
  | some found => .ok found
  | none => .error (if isPlaceTooLong place then .tooLong else tree.obstacle place)

/-- The content of the file at a place, if a file is there. -/
def content? (tree : FileTree) (place : Place) : Option ByteArray :=
  match tree.find? place with
  | some (.file content) => some content
  | _ => none

/-- Something is at a place. -/
def has (tree : FileTree) (place : Place) : Bool := (tree.find? place).isSome

/-- A file is at a place. -/
def hasFile (tree : FileTree) (place : Place) : Bool := (tree.content? place).isSome

/-- A folder is at a place. -/
def hasFolder (tree : FileTree) (place : Place) : Bool :=
  match tree.find? place with
  | some (.folder _) => true
  | _ => false

/-- Reads the content of the file at a place. -/
def read (tree : FileTree) (place : Place) : Except FileError ByteArray := do
  match ← tree.look place with
  | .file content => return content
  | .folder _ => throw .isFolder

/-- Every tree is at its own root. -/
@[simp]
theorem find?_nil (tree : FileTree) : tree.find? [] = some tree := by
  cases tree <;> rfl

/-- Nothing is below a file. -/
@[simp]
theorem find?_file_cons (content : ByteArray) (name : String) (place : Place) :
    (file content).find? (name :: place) = none := rfl

/-- Below a folder is what is in the entry of the first name. -/
@[simp]
theorem find?_folder_cons (entries : List (String × FileTree)) (name : String) (place : Place) :
    (folder entries).find? (name :: place) = (entries.lookup name).bind (·.find? place) := by
  cases h : entries.lookup name <;> simp [find?, h]

/-- What is below a place is below what is at the place. -/
theorem find?_append (tree : FileTree) (place below : Place) :
    tree.find? (place ++ below) = (tree.find? place).bind (·.find? below) := by
  induction place generalizing tree with
  | nil => simp
  | cons name place ih =>
    cases tree with
    | file content => simp
    | folder entries => cases h : entries.lookup name <;> simp [h, ih]

/-- The content at a place that a tree, if there is one, has. -/
def contentIn? (tree? : Option FileTree) (place : Place) : Option ByteArray :=
  tree?.bind (·.content? place)

/-- A folder has no content of its own. -/
@[simp]
theorem content?_folder_nil (entries : List (String × FileTree)) :
    (folder entries).content? [] = none := rfl

/-- Below a folder is the content that the entry of the first name has. -/
@[simp]
theorem content?_folder_cons (entries : List (String × FileTree)) (name : String)
    (place : Place) :
    (folder entries).content? (name :: place) = contentIn? (entries.lookup name) place := by
  cases h : entries.lookup name <;> simp [content?, contentIn?, h]

/-- A folder is at its own root. -/
@[simp]
theorem hasFolder_folder_nil (entries : List (String × FileTree)) :
    (folder entries).hasFolder [] = true := rfl

/-- Below a folder are the folders of the entry of the first name. -/
@[simp]
theorem hasFolder_folder_cons (entries : List (String × FileTree)) (name : String)
    (place : Place) :
    (folder entries).hasFolder (name :: place) =
      (entries.lookup name).any (·.hasFolder place) := by
  cases h : entries.lookup name <;> simp [hasFolder, h]

/-! ## Listing -/

mutual

/-- The places of everything in a tree, the tree itself first. -/
def places : FileTree → List Place
  | .file _ => [[]]
  | .folder entries => [] :: placesIn entries

/-- The places of everything in the entries of a folder. -/
def placesIn : List (String × FileTree) → List Place
  | [] => []
  | (name, tree) :: entries => tree.places.map (name :: ·) ++ placesIn entries
end

/-- The places of the files in a tree, in order, each once. -/
def files (tree : FileTree) : List Place :=
  (tree.places.eraseDups.filter tree.hasFile).mergeSort placeLe

/-- What is in an entry of a folder is listed with the folder. -/
theorem cons_mem_placesIn {name : String} {tree : FileTree} {place : Place}
    (hplace : place ∈ tree.places) :
    ∀ {entries : List (String × FileTree)}, entries.lookup name = some tree →
      name :: place ∈ placesIn entries
  | [], h => by simp at h
  | (first, other) :: entries, h => by
    simp only [placesIn, List.mem_append]
    by_cases hname : name = first
    · subst hname
      obtain rfl : other = tree := by simpa using h
      exact .inl (List.mem_map_of_mem hplace)
    · rw [List.lookup_cons, beq_eq_false_iff_ne.mpr hname] at h
      exact .inr (cons_mem_placesIn hplace h)

/-- A place that something is at is listed. -/
theorem mem_places_of_find? :
    ∀ {place : Place} {tree found : FileTree}, tree.find? place = some found → place ∈ tree.places
  | [], tree, _, _ => by cases tree <;> simp [places]
  | _ :: _, .file _, _, h => by simp at h
  | name :: place, .folder entries, found, h => by
    rw [find?_folder_cons, Option.bind_eq_some_iff] at h
    obtain ⟨tree, htree, hfound⟩ := h
    rw [places, List.mem_cons]
    exact .inr (cons_mem_placesIn (mem_places_of_find? hfound) htree)

/-- The files are the places that hold a file. -/
theorem mem_files {tree : FileTree} {place : Place} :
    place ∈ tree.files ↔ tree.hasFile place = true := by
  simp only [files, List.mem_mergeSort, List.mem_filter, List.mem_eraseDups, and_iff_right_iff_imp]
  intro h
  obtain ⟨content, hcontent⟩ := Option.isSome_iff_exists.mp h
  cases hfound : tree.find? place with
  | none => simp [content?, hfound] at hcontent
  | some found => exact mem_places_of_find? hfound

end FileTree

end ViewCompiler
