import ViewCompiler.FileTree

/-!
# Changes of a tree of files

`FileTree.alter` changes what is at a place by a rule, and writing and removing are such rules.
Afterwards the place holds what the rule made of what it held before (`rule_of_alter`), and
contents differ only at the place and below it (`contentIn?_of_alter`). Making folders changes no
content, whether it succeeds or not (`content?_makeFolders`).
-/

namespace ViewCompiler

/-! ## Entries -/

/-- Puts an entry into a folder, or takes it out. -/
def setEntry (name : String) (tree? : Option FileTree) (entries : List (String × FileTree)) :
    List (String × FileTree) :=
  entries.filter (·.1 != name) ++ tree?.toList.map fun tree => (name, tree)

/-- A folder's entry after one is put in or taken out. -/
theorem lookup_setEntry (name other : String) (tree? : Option FileTree)
    (entries : List (String × FileTree)) :
    (setEntry name tree? entries).lookup other =
      if other = name then tree? else entries.lookup other := by
  induction entries with
  | nil =>
    cases tree? with
    | none => simp [setEntry]
    | some tree =>
      by_cases h : other = name
      · simp [setEntry, h]
      · simp [setEntry, List.lookup_cons, h, beq_eq_false_iff_ne.mpr h]
  | cons entry entries ih =>
    obtain ⟨first, tree⟩ := entry
    by_cases hname : first = name
    · subst hname
      by_cases h : other = first
      · simpa [setEntry, h] using ih
      · simpa [setEntry, h, List.lookup_cons, beq_eq_false_iff_ne.mpr h] using ih
    · by_cases hfirst : other = first
      · subst hfirst
        simp [setEntry, hname]
      · simpa [setEntry, hname, List.lookup_cons, beq_eq_false_iff_ne.mpr hfirst] using ih

namespace FileTree

/-! ## Rules -/

/-- Changes what is at a place, or puts something there, or takes it away, as a rule says. -/
def alter (rule : Option FileTree → Except FileError (Option FileTree)) :
    Place → Option FileTree → Except FileError (Option FileTree)
  | [], tree? => rule tree?
  | name :: place, some (.folder entries) => do
    if isNameTooLong name then throw .tooLong
    let tree? ← alter rule place (entries.lookup name)
    return some (.folder (setEntry name tree? entries))
  | _ :: _, some (.file _) => throw .notFolder
  | _ :: _, none => throw .missing

/-- A change of something in a folder is a change of the folder's entry. -/
theorem exists_of_alter_cons {rule : Option FileTree → Except FileError (Option FileTree)}
    {name : String} {place : Place} {before after : Option FileTree}
    (h : alter rule (name :: place) before = .ok after) :
    ∃ entries tree?, before = some (folder entries) ∧
      alter rule place (entries.lookup name) = .ok tree? ∧
        after = some (folder (setEntry name tree? entries)) := by
  match before with
  | some (.folder entries) =>
    by_cases hname : isNameTooLong name = true
    · simp [alter, hname, throw, throwThe, MonadExceptOf.throw, bind, Except.bind] at h
    · cases hentry : alter rule place (entries.lookup name) with
      | error error => simp [alter, hname, hentry, bind, Except.bind] at h
      | ok tree? =>
        exact ⟨entries, tree?, rfl, hentry, by
          simpa [alter, hname, hentry, bind, Except.bind, pure, Except.pure, eq_comm] using h⟩
  | some (.file _) => simp [alter, throw, throwThe, MonadExceptOf.throw] at h
  | none => simp [alter, throw, throwThe, MonadExceptOf.throw] at h

/-- After a change, at the place is what the rule made of what was there. -/
theorem rule_of_alter {rule : Option FileTree → Except FileError (Option FileTree)} :
    ∀ {place : Place} {before after : Option FileTree},
      alter rule place before = .ok after →
        rule (before.bind (·.find? place)) = .ok (after.bind (·.find? place))
  | [], before, after, h => by cases before <;> cases after <;> simpa [alter] using h
  | _ :: _, _, _, h => by
    obtain ⟨entries, tree?, rfl, hentry, rfl⟩ := exists_of_alter_cons h
    simpa [lookup_setEntry] using rule_of_alter hentry

/-- A change leaves the contents of all files that are neither at its place nor below it. -/
theorem contentIn?_of_alter {rule : Option FileTree → Except FileError (Option FileTree)} :
    ∀ {place other : Place} {before after : Option FileTree},
      alter rule place before = .ok after → ¬ place <+: other →
        contentIn? after other = contentIn? before other
  | [], other, _, _, _, hother => absurd (List.nil_prefix) hother
  | name :: place, other, _, _, h, hother => by
    obtain ⟨entries, tree?, rfl, hentry, rfl⟩ := exists_of_alter_cons h
    match other with
    | [] => simp [contentIn?]
    | first :: rest =>
      by_cases hname : first = name
      · subst hname
        have hrest : ¬ place <+: rest := fun hp => hother (List.prefix_cons_inj _ |>.mpr hp)
        simpa [contentIn?, lookup_setEntry] using contentIn?_of_alter hentry hrest
      · simp [contentIn?, lookup_setEntry, hname]

/-- Changes a tree at a place as a rule says. A tree that is taken away as a whole leaves an empty
folder. -/
def change (rule : Option FileTree → Except FileError (Option FileTree)) (place : Place)
    (tree : FileTree) : Except FileError FileTree := do
  if isPlaceTooLong place then throw .tooLong
  return (← alter rule place (some tree)).getD (.folder [])

/-! ## Files -/

/-- Writes a file, a new one or over an old one. -/
def write (place : Place) (content : ByteArray) : FileTree → Except FileError FileTree :=
  change (fun
    | some (.folder _) => throw .isFolder
    | _ => return some (.file content)) place

/-- Removes a file. -/
def removeFile : Place → FileTree → Except FileError FileTree :=
  change fun
    | some (.file _) => return none
    | some (.folder _) => throw .isFolder
    | none => throw .missing

/-- Removes a folder with everything in it. -/
def removeFolder : Place → FileTree → Except FileError FileTree :=
  change fun
    | some (.folder _) => return none
    | some (.file _) => throw .notFolder
    | none => throw .missing

/-! ## Folders -/

/-- Makes a folder and those above it, as far as they are not there yet. The first name that is too
long ends it; the folders above that name stay. -/
def makeFoldersIn : Place → FileTree → Except FileError Unit × FileTree
  | [], .folder entries => (.ok (), .folder entries)
  | [], .file content => (.error .occupied, .file content)
  | _ :: _, .file content => (.error .notFolder, .file content)
  | name :: place, .folder entries =>
    if isNameTooLong name then (.error .tooLong, .folder entries)
    else
      let (result, tree) := makeFoldersIn place ((entries.lookup name).getD (.folder []))
      (result, .folder (setEntry name (some tree) entries))

/-- Makes a folder and those above it, as far as they are not there yet and the path is not too
long. -/
def makeFolders (place : Place) (tree : FileTree) : Except FileError Unit × FileTree :=
  if isPlaceTooLong place then (.error .tooLong, tree) else makeFoldersIn place tree

/-- Making folders leaves the contents of all files in the tree. -/
theorem content?_makeFoldersIn :
    ∀ (place : Place) (tree : FileTree) (other : Place),
      (makeFoldersIn place tree).2.content? other = tree.content? other
  | [], .folder _, _ => rfl
  | [], .file _, _ => rfl
  | _ :: _, .file _, _ => rfl
  | name :: place, .folder entries, other => by
    unfold makeFoldersIn
    split
    · rfl
    · match other with
      | [] => rfl
      | first :: rest =>
        by_cases hname : first = name
        · subst hname
          have ih := content?_makeFoldersIn place ((entries.lookup first).getD (.folder [])) rest
          cases hl : entries.lookup first with
          | some tree => simpa [lookup_setEntry, contentIn?, hl] using ih
          | none =>
            simp only [hl, Option.getD_none] at ih
            cases rest <;> simpa [lookup_setEntry, contentIn?, hl] using ih
        · simp [lookup_setEntry, hname]

/-- Making folders leaves the contents of all files. -/
theorem content?_makeFolders (place : Place) (tree : FileTree) (other : Place) :
    (tree.makeFolders place).2.content? other = tree.content? other := by
  unfold makeFolders
  split
  · rfl
  · exact content?_makeFoldersIn place tree other

/-- Writes a file after making the folder for it. The folder stays also where the file cannot be
written. -/
def store (place : Place) (content : ByteArray) (tree : FileTree) :
    Except FileError Unit × FileTree :=
  match tree.makeFolders place.dropLast with
  | (.error error, tree) => (.error error, tree)
  | (.ok (), tree) =>
    match tree.write place content with
    | .error error => (.error error, tree)
    | .ok tree => (.ok (), tree)

end FileTree

end ViewCompiler
