import ViewCompiler.Proofs.FileTree.Contents

/-!
# Where folders and files can be made

Within the limits, a folder can be made at a place that no file is at or above
(`makeFolders_of_isClear`), and a file can be written where nothing is in a folder
(`exists_write`). Such a place can also be looked at (`look_ne_tooLong`).
-/

namespace ViewCompiler

/-- The names of a usable place are within the limits, and so is the whole place. -/
theorem isPlaceUsable_iff {place : Place} :
    isPlaceUsable place = true ↔
      isPlaceTooLong place = false ∧ ∀ name ∈ place, isNameTooLong name = false := by
  simp [isPlaceUsable]

namespace FileTree

/-! ## Looking -/

/-- Names within the limits do not stop a way for their length. -/
theorem obstacle_ne_tooLong :
    ∀ {place : Place} (tree : FileTree), (∀ name ∈ place, isNameTooLong name = false) →
      tree.obstacle place ≠ .tooLong
  | _, .file _, _ => by simp [obstacle]
  | [], .folder _, _ => by simp [obstacle]
  | name :: place, .folder entries, hnames => by
    rw [List.forall_mem_cons] at hnames
    rw [obstacle]
    split
    · exact obstacle_ne_tooLong _ hnames.2
    · simp [hnames.1]

/-- A place within the limits can be looked at. -/
theorem look_ne_tooLong {place : Place} (husable : isPlaceUsable place = true)
    (tree : FileTree) : tree.look place ≠ .error .tooLong := by
  obtain ⟨hlong, hnames⟩ := isPlaceUsable_iff.mp husable
  unfold look
  split
  · nofun
  · intro h
    rw [if_neg (by simp [hlong])] at h
    exact obstacle_ne_tooLong tree hnames (Except.error.inj h)

/-! ## Folders -/

/-- No file is at the place or on the way to it. -/
def IsClear (place : Place) (tree : FileTree) : Prop :=
  ∀ above, above <+: place → tree.content? above = none

/-- What is at a clear place, if anything is, is a folder. -/
theorem IsClear.exists_folder {place : Place} {tree found : FileTree} (h : tree.IsClear place)
    (hfound : tree.find? place = some found) : ∃ entries, found = .folder entries := by
  cases found with
  | folder entries => exact ⟨entries, rfl⟩
  | file content =>
    have hnone := h place List.prefix_rfl
    rw [content?, hfound] at hnone
    cases hnone

/-- The way to a clear place is clear after its first name too. -/
theorem IsClear.entry {name : String} {place : Place} {entries : List (String × FileTree)}
    (h : (folder entries).IsClear (name :: place)) :
    ((entries.lookup name).getD (.folder [])).IsClear place := fun above habove => by
  rw [content?_getD, ← content?_folder_cons]
  exact h (name :: above) ((List.prefix_cons_inj name).mpr habove)

/-- Folders can be made where no file is in the way and no name is too long. -/
theorem makeFoldersIn_of_isClear :
    ∀ {place : Place} {tree : FileTree}, (∀ name ∈ place, isNameTooLong name = false) →
      tree.IsClear place → (makeFoldersIn place tree).1 = .ok ()
  | [], .folder _, _, _ => rfl
  | _, .file _, _, hclear => nomatch hclear [] List.nil_prefix
  | name :: place, .folder entries, hnames, hclear => by
    rw [List.forall_mem_cons] at hnames
    have hfirst : ¬ isNameTooLong name = true := by simp [hnames.1]
    unfold makeFoldersIn
    rw [if_neg hfirst]
    exact makeFoldersIn_of_isClear hnames.2 hclear.entry

/-- **A folder can be made at a clear place within the limits.** -/
theorem makeFolders_of_isClear {place : Place} {tree : FileTree}
    (husable : isPlaceUsable place = true) (hclear : tree.IsClear place) :
    (tree.makeFolders place).1 = .ok () := by
  obtain ⟨hlong, hnames⟩ := isPlaceUsable_iff.mp husable
  rw [makeFolders, if_neg (by simp [hlong])]
  exact makeFoldersIn_of_isClear hnames hclear

/-- The folder that was made is there. -/
theorem exists_folder_of_makeFolders {place : Place} {tree : FileTree}
    (husable : isPlaceUsable place = true) (hclear : tree.IsClear place) :
    ∃ entries, (tree.makeFolders place).2.find? place = some (.folder entries) := by
  obtain ⟨hlong, hnames⟩ := isPlaceUsable_iff.mp husable
  rw [makeFolders, if_neg (by simp [hlong]),
    find?_makeFoldersIn (makeFoldersIn_of_isClear hnames hclear)]
  cases hfound : tree.find? place with
  | none => exact ⟨[], rfl⟩
  | some found =>
    obtain ⟨entries, rfl⟩ := hclear.exists_folder hfound
    exact ⟨entries, rfl⟩

/-! ## Files -/

/-- A change at a place is a change of what is above it. -/
theorem alter_append (rule : Option FileTree → Except FileError (Option FileTree))
    (place below : Place) (tree? : Option FileTree) :
    alter rule (place ++ below) tree? = alter (alter rule below) place tree? := by
  induction place generalizing tree? with
  | nil => rfl
  | cons name place ih =>
    match tree? with
    | none | some (.file _) => rfl
    | some (.folder entries) => simp only [List.cons_append, alter, ih]

/-- A change of an entry of a folder succeeds if the rule does for the entry. -/
theorem exists_change_entry {rule : Option FileTree → Except FileError (Option FileTree)}
    {place : Place} {name : String} {tree : FileTree} {entries : List (String × FileTree)}
    {result : Option FileTree} (husable : isPlaceUsable (place ++ [name]) = true)
    (hfolder : tree.find? place = some (.folder entries))
    (hrule : rule (entries.lookup name) = .ok result) :
    ∃ after, change rule (place ++ [name]) tree = .ok after := by
  obtain ⟨hlong, hnames⟩ := isPlaceUsable_iff.mp husable
  have hname : isNameTooLong name = false := hnames name (by simp)
  have hentry : alter rule [name] (some (.folder entries)) =
      .ok (some (.folder (setEntry name result entries))) := by
    simp [alter, hname, hrule, bind, Except.bind, pure, Except.pure]
  obtain ⟨tree?, htree⟩ :=
    exists_alter hentry (fun name hmem => hnames name (List.mem_append_left _ hmem)) hfolder
  refine ⟨tree?.getD (.folder []), ?_⟩
  simp [change, hlong, alter_append, htree, bind, Except.bind, pure, Except.pure]

/-- **A file can be written where nothing is in a folder.** -/
theorem exists_write {place : Place} {name : String} {tree : FileTree}
    {entries : List (String × FileTree)} (content : ByteArray)
    (husable : isPlaceUsable (place ++ [name]) = true)
    (hfolder : tree.find? place = some (.folder entries))
    (hnone : tree.find? (place ++ [name]) = none) :
    ∃ after, tree.write (place ++ [name]) content = .ok after := by
  have hlookup : entries.lookup name = none := by
    simpa [find?_append, hfolder, Option.bind_eq_none_iff] using hnone
  exact exists_change_entry husable hfolder (by rw [hlookup]; rfl)

end FileTree

end ViewCompiler
