import ViewCompiler.FileTree.Change

/-!
# Contents after a change

What each change makes of the contents of the files: writing a file and removing one change the
content at their place only (`content?_write`, `content?_removeFile`), and removing a folder takes
away everything at its place and below (`find?_removeFolder`). Making folders makes folders only,
also where the file that they are for cannot be stored (`makesFolders_store`). A place that was
written once is within the limits (`isPlaceUsable_of_store`), and a file at such a place can be
removed (`exists_removeFile`).
-/

namespace ViewCompiler

/-- The place and all its names are within the limits. -/
def isPlaceUsable (place : Place) : Bool :=
  !isPlaceTooLong place && place.all (!isNameTooLong ·)

namespace FileTree

variable {rule : Option FileTree → Except FileError (Option FileTree)}

/-! ## Changes by a rule -/

/-- A change reaches its place by names that are within the limits. -/
theorem isNameTooLong_of_alter :
    ∀ {place : Place} {before after : Option FileTree}, alter rule place before = .ok after →
      ∀ name ∈ place, isNameTooLong name = false
  | [], _, _, _ => by simp
  | first :: place, _, _, h => by
    obtain ⟨entries, tree?, rfl, hentry, -⟩ := exists_of_alter_cons h
    have hfirst : isNameTooLong first = false := by
      cases hlong : isNameTooLong first with
      | true => simp [alter, hlong, throw, throwThe, MonadExceptOf.throw, bind, Except.bind] at h
      | false => rfl
    exact List.forall_mem_cons.mpr ⟨hfirst, isNameTooLong_of_alter hentry⟩

/-- A change succeeds at a place that something is at, if the rule does and no name is too long. -/
theorem exists_alter {found : FileTree} {result : Option FileTree}
    (hrule : rule (some found) = .ok result) :
    ∀ {place : Place} {tree : FileTree}, (∀ name ∈ place, isNameTooLong name = false) →
      tree.find? place = some found → ∃ after, alter rule place (some tree) = .ok after
  | [], tree, _, hfound => by
    obtain rfl : tree = found := by simpa using hfound
    exact ⟨result, hrule⟩
  | name :: place, .file _, _, hfound => by simp at hfound
  | name :: place, .folder entries, hnames, hfound => by
    rw [List.forall_mem_cons] at hnames
    rw [find?_folder_cons, Option.bind_eq_some_iff] at hfound
    obtain ⟨tree, htree, hfound⟩ := hfound
    obtain ⟨after, hafter⟩ := exists_alter hrule hnames.2 hfound
    exact ⟨some (.folder (setEntry name after entries)), by
      simp [alter, hnames.1, htree, hafter, bind, Except.bind, pure, Except.pure]⟩

/-- A change of a tree is a change by its rule at a place within the limits. -/
theorem exists_of_change {place : Place} {tree after : FileTree}
    (h : change rule place tree = .ok after) :
    isPlaceTooLong place = false ∧
      ∃ tree?, alter rule place (some tree) = .ok tree? ∧ after = tree?.getD (.folder []) := by
  by_cases hlong : isPlaceTooLong place = true
  · simp [change, hlong, throw, throwThe, MonadExceptOf.throw, bind, Except.bind] at h
  · cases halter : alter rule place (some tree) with
    | error error => simp [change, hlong, halter, bind, Except.bind] at h
    | ok tree? =>
      refine ⟨by simpa using hlong, tree?, rfl, ?_⟩
      simpa [change, hlong, halter, bind, Except.bind, pure, Except.pure, eq_comm] using h

/-- A place that a change succeeds at is within the limits. -/
theorem isPlaceUsable_of_change {place : Place} {tree after : FileTree}
    (h : change rule place tree = .ok after) : isPlaceUsable place = true := by
  obtain ⟨hlong, tree?, halter, -⟩ := exists_of_change h
  simpa [isPlaceUsable, hlong] using isNameTooLong_of_alter halter

/-- A change by a rule that succeeds for what is at a place within the limits succeeds. -/
theorem exists_change {place : Place} {tree found : FileTree} {result : Option FileTree}
    (hrule : rule (some found) = .ok result) (husable : isPlaceUsable place = true)
    (hfound : tree.find? place = some found) : ∃ after, change rule place tree = .ok after := by
  simp only [isPlaceUsable, Bool.and_eq_true, Bool.not_eq_true', List.all_eq_true] at husable
  obtain ⟨tree?, htree⟩ := exists_alter hrule husable.2 hfound
  exact ⟨tree?.getD (.folder []), by
    simp [change, husable.1, htree, bind, Except.bind, pure, Except.pure]⟩

/-- An empty folder has no contents, as nothing has. -/
theorem content?_getD (tree? : Option FileTree) (place : Place) :
    (tree?.getD (.folder [])).content? place = contentIn? tree? place := by
  cases tree? with
  | some tree => rfl
  | none => cases place <;> rfl

/-- The content below a place is the content in what is at the place. -/
theorem contentIn?_append (tree? : Option FileTree) (place below : Place) :
    contentIn? tree? (place ++ below) = contentIn? (tree?.bind (·.find? place)) below := by
  cases tree? with
  | none => rfl
  | some tree =>
    simp only [contentIn?, Option.bind_some, content?, find?_append]
    cases tree.find? place <;> rfl

/-- After a change, the place and what is below it has the contents of what the rule made, and
everything else its contents. -/
theorem content?_of_change {place : Place} {tree after : FileTree}
    (h : change rule place tree = .ok after) :
    ∃ tree?, rule (tree.find? place) = .ok tree? ∧
      (∀ below, after.content? (place ++ below) = contentIn? tree? below) ∧
        ∀ other, ¬ place <+: other → after.content? other = tree.content? other := by
  obtain ⟨-, result, halter, rfl⟩ := exists_of_change h
  refine ⟨_, rule_of_alter halter, fun below => ?_, fun other hother => ?_⟩
  · rw [content?_getD, contentIn?_append]
  · rw [content?_getD, contentIn?_of_alter halter hother]
    rfl

/-! ## Comparing contents -/

/-- Two trees have the same contents at some places if they have where one of them has
something. -/
theorem content?_eq_of_forall_places {tree other : FileTree} {P : Place → Prop}
    (h : ∀ place ∈ tree.places ++ other.places, P place →
      tree.content? place = other.content? place) {place : Place} (hplace : P place) :
    tree.content? place = other.content? place := by
  cases htree : tree.find? place with
  | some found => exact h place (List.mem_append_left _ (mem_places_of_find? htree)) hplace
  | none =>
    cases hother : other.find? place with
    | some found => exact h place (List.mem_append_right _ (mem_places_of_find? hother)) hplace
    | none => simp [content?, htree, hother]

/-! ## Files -/

/-- A file has its content, and nothing below it has any. -/
theorem contentIn?_file (content : ByteArray) (below : Place) :
    contentIn? (some (.file content)) below = if below = [] then some content else none := by
  cases below <;> rfl

/-- Nothing has content below a place that no folder is at. -/
theorem content?_append_of_not_folder {place below : Place} {tree : FileTree}
    (h : ∀ entries, tree.find? place ≠ some (.folder entries)) (hbelow : below ≠ []) :
    tree.content? (place ++ below) = none := by
  rw [show tree.content? (place ++ below) = contentIn? (some tree) (place ++ below) from rfl,
    contentIn?_append, Option.bind_some]
  match hfound : tree.find? place with
  | none => rfl
  | some (.file content) => simp [contentIn?_file, hbelow]
  | some (.folder entries) => exact absurd hfound (h entries)

/-- A change that makes a file of a file or of nothing, or takes a file away, changes the content
at its place only. -/
theorem content?_of_change_file {place : Place} {new : Option ByteArray} {tree after : FileTree}
    (hrule : ∀ found? tree?, rule found? = .ok tree? →
      tree? = new.map .file ∧ ∀ entries, found? ≠ some (.folder entries))
    (h : change rule place tree = .ok after) (other : Place) :
    after.content? other = if other = place then new else tree.content? other := by
  obtain ⟨tree?, hok, hin, hout⟩ := content?_of_change h
  obtain ⟨rfl, hfolder⟩ := hrule _ _ hok
  by_cases hother : place <+: other
  · obtain ⟨below, rfl⟩ := hother
    rw [hin]
    have hnew : contentIn? (new.map .file) below = if below = [] then new else none := by
      cases new with
      | none => cases below <;> rfl
      | some content => exact contentIn?_file content below
    rw [hnew]
    cases below with
    | nil => simp
    | cons name below => simp [content?_append_of_not_folder hfolder]
  · have hne : other ≠ place := by
      rintro rfl
      exact hother List.prefix_rfl
    rw [hout other hother, if_neg hne]

/-- Writing a file changes the content at its place only. -/
theorem content?_write {place : Place} {content : ByteArray} {tree after : FileTree}
    (h : tree.write place content = .ok after) (other : Place) :
    after.content? other = if other = place then some content else tree.content? other := by
  refine content?_of_change_file (fun found? tree? hok => ?_) h other
  match found? with
  | some (.folder _) => cases hok
  | some (.file _) | none =>
    cases hok
    exact ⟨rfl, by simp⟩

/-- Removing a file changes the content at its place only. -/
theorem content?_removeFile {place : Place} {tree after : FileTree}
    (h : tree.removeFile place = .ok after) (other : Place) :
    after.content? other = if other = place then none else tree.content? other := by
  refine content?_of_change_file (fun found? tree? hok => ?_) h other
  match found? with
  | some (.folder _) | none => cases hok
  | some (.file _) =>
    cases hok
    exact ⟨rfl, by simp⟩

/-- A file at a place within the limits can be removed. -/
theorem exists_removeFile {place : Place} {content : ByteArray} {tree : FileTree}
    (husable : isPlaceUsable place = true) (h : tree.content? place = some content) :
    ∃ after, tree.removeFile place = .ok after := by
  have hfound : tree.find? place = some (.file content) := by
    unfold content? at h
    split at h
    · simp_all
    · cases h
  exact exists_change rfl husable hfound

/-! ## Folders -/

/-- Removing a folder takes away everything at its place and below, and nothing else. -/
theorem content?_removeFolder {place : Place} {tree after : FileTree}
    (h : tree.removeFolder place = .ok after) :
    (∀ below, after.content? (place ++ below) = none) ∧
      ∀ other, ¬ place <+: other → after.content? other = tree.content? other := by
  obtain ⟨tree?, hok, hin, hout⟩ := content?_of_change h
  refine ⟨fun below => ?_, hout⟩
  rw [hin]
  match hfound : tree.find? place with
  | some (.folder _) =>
    rw [hfound] at hok
    cases hok
    rfl
  | some (.file _) | none =>
    rw [hfound] at hok
    cases hok

/-- Nothing is left below a folder that was removed. -/
theorem find?_removeFolder {place : Place} {tree after : FileTree}
    (h : tree.removeFolder place = .ok after) (name : String) (below : Place) :
    after.find? (place ++ name :: below) = none := by
  obtain ⟨-, tree?, halter, rfl⟩ := exists_of_change h
  have hrule := rule_of_alter halter
  have hgone : tree?.bind (·.find? place) = none := by
    match hfound : (some tree).bind (·.find? place) with
    | some (.folder _) =>
      rw [hfound] at hrule
      exact (Except.ok.inj hrule).symm
    | some (.file _) | none =>
      rw [hfound] at hrule
      cases hrule
  cases tree? with
  | some result =>
    have hresult : result.find? place = none := hgone
    simp [find?_append, hresult]
  | none => cases place <;> simp

/-- A folder that was made is there, with what was in it. -/
theorem find?_makeFoldersIn :
    ∀ {place : Place} {tree : FileTree}, (makeFoldersIn place tree).1 = .ok () →
      (makeFoldersIn place tree).2.find? place = some ((tree.find? place).getD (.folder []))
  | [], .folder entries, _ => by simp [makeFoldersIn]
  | [], .file content, h => by cases h
  | _ :: _, .file content, h => by cases h
  | name :: place, .folder entries, h => by
    unfold makeFoldersIn at h ⊢
    split at h
    · cases h
    · next hname =>
      have ih := find?_makeFoldersIn h
      simp only [hname, Bool.false_eq_true, if_false, find?_folder_cons, lookup_setEntry, if_true,
        Option.bind_some, ih]
      cases entries.lookup name with
      | some tree => rfl
      | none => cases place <;> simp

/-- Nothing is put into a folder that is made. -/
theorem find?_append_makeFolders {place : Place} {tree : FileTree}
    (h : (tree.makeFolders place).1 = .ok ()) (name : String) (below : Place) :
    (tree.makeFolders place).2.find? (place ++ name :: below) =
      tree.find? (place ++ name :: below) := by
  unfold makeFolders at h ⊢
  split at h
  · cases h
  · next hlong =>
    rw [if_neg hlong, find?_append, find?_append, find?_makeFoldersIn h]
    cases tree.find? place <;> simp

/-- The second tree is the first with folders on the way to a place where nothing was. -/
structure MakesFolders (place : Place) (tree after : FileTree) : Prop where
  content?_eq : ∀ other, after.content? other = tree.content? other
  hasFolder_eq : ∀ other, after.hasFolder other = tree.hasFolder other ∨
    other <+: place ∧ tree.find? other = none ∧ after.hasFolder other = true

/-- Making nothing makes folders. -/
theorem MakesFolders.refl (place : Place) (tree : FileTree) : MakesFolders place tree tree :=
  ⟨fun _ => rfl, fun _ => .inl rfl⟩

/-- The folders afterwards are those of before and some on the way to the place, where nothing
was. -/
theorem hasFolder_makeFoldersIn :
    ∀ (place : Place) (tree : FileTree) (other : Place),
      (makeFoldersIn place tree).2.hasFolder other = tree.hasFolder other ∨
        other <+: place ∧ tree.find? other = none ∧
          (makeFoldersIn place tree).2.hasFolder other = true
  | [], .folder _, _ => .inl rfl
  | [], .file _, _ => .inl rfl
  | _ :: _, .file _, _ => .inl rfl
  | name :: place, .folder entries, other => by
    unfold makeFoldersIn
    split
    · exact .inl rfl
    · cases other with
      | nil => exact .inl rfl
      | cons first rest =>
        by_cases hname : first = name
        · subst hname
          have ih := hasFolder_makeFoldersIn place ((entries.lookup first).getD (.folder [])) rest
          simp only [hasFolder_folder_cons, lookup_setEntry, if_true, Option.any_some,
            find?_folder_cons]
          cases hlookup : entries.lookup first with
          | some tree => simpa [hlookup] using ih
          | none =>
            simp only [hlookup, Option.getD_none] at ih
            rcases ih with heq | ⟨hbelow, -, hmade⟩
            · cases rest with
              | nil => exact .inr ⟨by simp, rfl, heq⟩
              | cons second rest => exact .inl (by simpa using heq)
            · exact .inr ⟨(List.prefix_cons_inj first).mpr hbelow, rfl, hmade⟩
        · simp [lookup_setEntry, hname]

/-- **Making folders makes folders only, and only where nothing was.** -/
theorem makesFolders_makeFolders (place : Place) (tree : FileTree) :
    MakesFolders place tree (tree.makeFolders place).2 := by
  refine ⟨content?_makeFolders place tree, fun other => ?_⟩
  unfold makeFolders
  split
  · exact .inl rfl
  · exact hasFolder_makeFoldersIn place tree other

/-! ## Files with their folders -/

/-- Where a file cannot be stored, only the folders for it were made. -/
theorem makesFolders_store {place : Place} {content : ByteArray} {tree : FileTree}
    {error : FileError} (h : (tree.store place content).1 = .error error) :
    MakesFolders place.dropLast tree (tree.store place content).2 := by
  have hfolders := makesFolders_makeFolders place.dropLast tree
  unfold store at h ⊢
  split at h
  · next hmake => rwa [hmake] at hfolders
  · next hmake =>
    rw [hmake] at hfolders
    split at h
    · exact hfolders
    · cases h

/-- Storing a file changes the content at its place only. -/
theorem content?_store {place : Place} {content : ByteArray} {tree : FileTree}
    (h : (tree.store place content).1 = .ok ()) (other : Place) :
    (tree.store place content).2.content? other =
      if other = place then some content else tree.content? other := by
  have hfolders := content?_makeFolders place.dropLast tree other
  unfold store at h ⊢
  split at h
  · cases h
  · next hmake =>
    rw [hmake] at hfolders
    split at h
    · cases h
    · next hwrite => rw [content?_write hwrite, ← hfolders]

/-- A file is stored within the limits. -/
theorem isPlaceUsable_of_store {place : Place} {content : ByteArray} {tree : FileTree}
    (h : (tree.store place content).1 = .ok ()) : isPlaceUsable place = true := by
  unfold store at h
  split at h
  · cases h
  · split at h
    · cases h
    · next hwrite => exact isPlaceUsable_of_change hwrite

end FileTree

end ViewCompiler
