import ViewCompiler.Proofs.Project.Steps

/-!
# Builds and the files of views

A build and the following of changes leave every listed view as it is, however they end, as long as
two things hold: nothing that is compiled or removed has its output at the view's place, and a
clean build does not remove a cache that the view is in (`content?_listed`). Both hold if neither
the cache nor the folder of the views is in the other (`content?_listed_of_apart`). The guard of a
clean build looks for views around the cache only, and a view in the cache is lost
(`exists_content?_listed_eq_none`).
-/

namespace ViewCompiler

variable {α β : Type}

/-! ## Keeping a content -/

/-- The computation leaves a place with the content it has, or without any, however it ends. -/
def Build.Keeps (place : Place) (content? : Option ByteArray) (m : Build α) : Prop :=
  Build.Preserves (fun ws => ws.files.content? place = content?) m

namespace Build

variable {place : Place} {content? : Option ByteArray}

/-- A step that leaves a file as it is keeps it. -/
theorem keeps_of_content? {m : Build α}
    (h : ∀ ws, (m.after ws).files.content? place = ws.files.content? place) :
    Keeps place content? m := fun ws hcontent => (h ws).trans hcontent

/-- Logging keeps every file. -/
theorem keeps_report (event : Event) : Keeps place content? (report event) := fun _ h => h

/-- Looking at a place keeps every file. -/
theorem keeps_has (other : Place) : Keeps place content? (Build.has other) :=
  keeps_of_content? fun ws => by rw [after_has]

/-- Making folders keeps every file. -/
theorem keeps_makeFolders (other : Place) : Keeps place content? (Build.makeFolders other) :=
  keeps_of_content? fun ws => by rw [after_makeFolders, FileTree.content?_makeFolders]

/-- A change of the files keeps what it keeps where it succeeds. -/
theorem keeps_changing {change : FileTree → Except FileError FileTree}
    (h : ∀ files after, change files = .ok after → after.content? place = files.content? place) :
    Keeps place content? (changing change) := by
  refine keeps_of_content? fun ws => ?_
  cases hchange : change ws.files with
  | ok files =>
    rw [after, run_changing_ok hchange]
    exact h _ _ hchange
  | error error => rw [after, run_changing_error hchange]

end Build

namespace Project

open Build

variable {project : Project} {place : Place} {content? : Option ByteArray}

/-! ## Steps that keep a content -/

/-- Compiling a view keeps what is not at the place of its output. -/
theorem keeps_compileView {view : Place} (hout : project.outputOf? view ≠ some place) :
    Keeps place content? (project.compileView view) := by
  refine keeps_of_content? fun ws => ?_
  cases hnames : project.namesBelow? view with
  | none =>
    unfold compileView
    rw [hnames]
    rfl
  | some names =>
    have hplace : place ≠ project.output names := by
      rintro rfl
      exact hout (by rw [outputOf?, hnames, Option.map_some])
    exact (viewOutcome_compileView hnames ws).content?_of_ne hplace

/-- Removing the output of a view keeps what is not at its place. -/
theorem keeps_removeView {view : Place} (hout : project.outputOf? view ≠ some place) :
    Keeps place content? (project.removeView view) := by
  refine keeps_of_content? fun ws => ?_
  cases hnames : project.namesBelow? view with
  | none =>
    unfold removeView
    rw [hnames]
    rfl
  | some names =>
    have hplace : place ≠ project.output names := by
      rintro rfl
      exact hout (by rw [outputOf?, hnames, Option.map_some])
    exact (removalOutcome_removeView hnames ws).content?_of_ne hplace

/-- Cleaning keeps what is not in the cache, and everything if the views are in it. -/
theorem keeps_clean (h : project.cache <+: place → project.cache <+: project.views) :
    Keeps place content? project.clean := by
  unfold clean
  refine (keeps_has _).bind fun _ found _ => ?_
  cases found with
  | false => exact preserves_pure ()
  | true =>
    simp only [if_true]
    split
    · intro ws hcontent
      rwa [after_bind_error (result_throw _ ws)]
    · next hviews =>
      have hplace : ¬ project.cache <+: place := fun hp =>
        hviews (List.isPrefixOf_iff_prefix.mpr (h hp))
      exact keeps_changing fun files after hremove =>
        (FileTree.content?_removeFolder hremove).2 place hplace

/-- Preparing the cache keeps everything but a missing file that keeps the cache out of version
control. -/
theorem keeps_prepareCache (h : content? = none → place ≠ project.ignoreFile) :
    Keeps place content? project.prepareCache := by
  unfold prepareCache
  refine (keeps_makeFolders _).bind fun _ _ _ => ?_
  intro ws hcontent
  cases hhas : (Build.has project.ignoreFile).result ws with
  | error error => rwa [after_bind_error hhas, after_has]
  | ok found =>
    rw [after_bind hhas, after_has]
    cases found with
    | true => exact hcontent
    | false =>
      have hne : place ≠ project.ignoreFile := by
        intro heq
        refine h ?_ heq
        have hfind : ws.files.find? project.ignoreFile = none := by
          simpa using find?_of_result_has hhas
        rw [← hcontent, heq, FileTree.content?, hfind]
      refine keeps_changing (fun files after hwrite => ?_) ws hcontent
      rw [FileTree.content?_write hwrite, if_neg hne]

/-- Compiling views keeps what is not at the place of an output. -/
theorem keeps_compileViews :
    ∀ {views : List Place}, (∀ view ∈ views, project.outputOf? view ≠ some place) →
      Keeps place content? (project.compileViews views)
  | [], _ => preserves_pure _
  | view :: views, h => by
    rw [List.forall_mem_cons] at h
    refine (keeps_compileView h.1).bind fun _ output _ =>
      (keeps_compileViews h.2).bind fun _ summary _ => ?_
    cases output <;> exact preserves_pure _

/-- What a build does before it compiles the views keeps what a clean build does not remove with
the cache, everything but a missing file that keeps the cache out of version control. -/
theorem keeps_opening {fresh : Bool} {views : List Place}
    (hclean : fresh = true → project.cache <+: place → project.cache <+: project.views)
    (hignore : content? = none → place ≠ project.ignoreFile) :
    Keeps place content? (project.opening fresh views) := by
  have hprepare : Keeps place content? (do
      project.prepareCache
      if views.isEmpty then report .nothingToCompile) := by
    refine (keeps_prepareCache hignore).bind fun _ _ _ => ?_
    split
    · exact keeps_report _
    · exact preserves_pure ()
  cases fresh with
  | false => exact hprepare
  | true => exact (keeps_clean (hclean rfl)).bind fun _ _ _ => hprepare

/-- A build keeps a file that no view has its output at and that a clean build does not remove with
the cache. -/
theorem content?_build {ws : Workspace} {views : List Place} {bytes : ByteArray} {fresh : Bool}
    (hviews : project.discover ws.files = .ok views)
    (hclean : fresh = true → project.cache <+: place → project.cache <+: project.views)
    (hout : ∀ view ∈ views, project.outputOf? view ≠ some place)
    (hcontent : ws.files.content? place = some bytes) :
    ((project.build fresh).after ws).files.content? place = some bytes := by
  rw [build_eq, after_bind (result_listViews.mpr hviews), after_listViews]
  have hopening : Keeps place (some bytes) (project.opening fresh views) :=
    keeps_opening hclean nofun
  exact hopening.bind (fun _ _ _ => keeps_compileViews hout) ws hcontent

/-- Bringing an output up to date keeps what is not at its place. -/
theorem keeps_follow {kind : ChangeKind} {view : Place}
    (hout : project.outputOf? view ≠ some place) :
    Keeps place content? (project.follow kind view) := by
  cases kind with
  | deleted => exact (keeps_removeView hout).bind fun _ _ _ => preserves_pure ()
  | added | modified => exact (keeps_compileView hout).bind fun _ _ _ => preserves_pure ()

/-- Following changes keeps what no changed view has its output at. -/
theorem keeps_followEach :
    ∀ {changes : List Change}, (∀ change ∈ changes,
      project.owns (change.path.place project.base) = true →
        project.outputOf? (change.path.place project.base) ≠ some place) →
      Keeps place content? (project.followEach changes)
  | [], _ => preserves_pure 0
  | change :: changes, h => by
    rw [List.forall_mem_cons] at h
    refine (keeps_of_content? fun ws => by rw [after_locate]).bind fun _ view hview => ?_
    obtain ⟨-, rfl⟩ := result_locate.mp hview
    split
    · next howns =>
      exact (keeps_follow (h.1 howns)).bind fun _ _ _ =>
        (keeps_followEach h.2).bind fun _ count _ => preserves_pure _
    · exact keeps_followEach h.2

/-! ## Listed views -/

/-- The cache and the folder of the views are different, and neither is in the other. -/
structure IsApart (project : Project) : Prop where
  cache : ¬ project.cache <+: project.views
  views : ¬ project.views <+: project.cache

/-- Nothing is in the cache and below the folder of the views if these are apart. -/
theorem IsApart.not_cache_above (h : project.IsApart) (names : List String) :
    ¬ project.cache <+: project.views ++ names := fun hcache =>
  (List.prefix_or_prefix_of_prefix hcache (List.prefix_append _ _)).elim h.cache h.views

/-- Nothing is below the folder of the views and in the cache if these are apart. -/
theorem IsApart.not_views_above (h : project.IsApart) (names : List String) :
    ¬ project.views <+: project.cache ++ names := fun hviews =>
  (List.prefix_or_prefix_of_prefix hviews (List.prefix_append _ _)).elim h.views h.cache

/-- No output is below the folder of the views if the cache is apart from it. -/
theorem IsApart.outputOf?_ne (h : project.IsApart) (view : Place) (names : List String) :
    project.outputOf? view ≠ some (project.views ++ names) := by
  intro hout
  obtain ⟨other, -, hother⟩ := Option.map_eq_some_iff.mp hout
  exact h.not_cache_above names (hother ▸ List.prefix_append _ _)

/-- What a build does before it compiles the views keeps everything below their folder if the cache
is apart from it. -/
theorem IsApart.content?_opening (h : project.IsApart) {fresh : Bool} {views : List Place}
    (names : List String) (ws : Workspace) :
    ((project.opening fresh views).after ws).files.content? (project.views ++ names) =
      ws.files.content? (project.views ++ names) := by
  have hcache := h.not_cache_above names
  have hignore : project.views ++ names ≠ project.ignoreFile := fun heq =>
    hcache (heq ▸ List.prefix_append _ _)
  exact keeps_opening (fun _ habove => absurd habove hcache) (fun _ => hignore) ws rfl

/-- Compiling a view leaves every view as it is if the cache is apart from them. -/
theorem IsApart.content?_compileView (h : project.IsApart) (view : Place) (names : List String)
    (ws : Workspace) :
    ((project.compileView view).after ws).files.content? (project.views ++ names) =
      ws.files.content? (project.views ++ names) :=
  keeps_compileView (h.outputOf?_ne view names) ws rfl

/-- **Every listed view stays as it is** through a build and through following changes, however
they end: as long as no output is put at its place, and, if the build is a clean one, the cache
that is removed does not hold it. -/
theorem content?_listed {ws : Workspace} {views : List Place} {view : Place}
    (hviews : project.discover ws.files = .ok views) (hview : view ∈ views) :
    ∃ bytes, ws.files.content? view = some bytes ∧
      (∀ fresh, (fresh = true → project.cache <+: view → project.cache <+: project.views) →
        (∀ other ∈ views, project.outputOf? other ≠ some view) →
          ((project.build fresh).after ws).files.content? view = some bytes) ∧
      ∀ changes : List Change,
        (∀ change ∈ changes, project.owns (change.path.place project.base) = true →
          project.outputOf? (change.path.place project.base) ≠ some view) →
            ((project.followAll changes).after ws).files.content? view = some bytes := by
  obtain ⟨names, rfl, -, hfile⟩ := (mem_discover hviews view).mp hview
  obtain ⟨bytes, hbytes⟩ := Option.isSome_iff_exists.mp hfile
  refine ⟨bytes, hbytes, fun fresh hclean hout => ?_, fun changes hout => ?_⟩
  · exact content?_build hviews hclean hout hbytes
  · refine keeps_followEach (fun change hchange => hout change ?_) ws hbytes
    exact List.mem_mergeSort.mp hchange

/-- A project whose cache is beside its views. -/
def beside : Project := ⟨[], ["v"], ["c"], ".anx.php", "", ""⟩

/-- A view is safe where the cache is beside the folder of the views. -/
theorem content?_listed_beside :
    let ws : Workspace := ⟨.folder [("v", .folder [("a.anx.php", .file "x".toUTF8)])], []⟩
    ∃ bytes, ws.files.content? ["v", "a.anx.php"] = some bytes ∧
      (∀ fresh, ((beside.build fresh).after ws).files.content? ["v", "a.anx.php"] = some bytes) ∧
      ∀ changes, ((beside.followAll changes).after ws).files.content? ["v", "a.anx.php"] =
        some bytes := by
  intro ws
  have hapart : beside.IsApart := ⟨by decide, by decide⟩
  obtain ⟨views, hviews⟩ : ∃ views, beside.discover ws.files = .ok views :=
    exists_discover rfl (by decide +kernel)
  have hview : ["v", "a.anx.php"] ∈ views :=
    (mem_discover hviews _).mpr ⟨["a.anx.php"], rfl, by decide +kernel, rfl⟩
  obtain ⟨bytes, hbytes, hbuild, hfollow⟩ := content?_listed hviews hview
  have hout (view : Place) : beside.outputOf? view ≠ some ["v", "a.anx.php"] :=
    hapart.outputOf?_ne view ["a.anx.php"]
  have hcache : ¬ beside.cache <+: ["v", "a.anx.php"] := hapart.not_cache_above ["a.anx.php"]
  exact ⟨bytes, hbytes,
    fun fresh => hbuild fresh (fun _ h => absurd h hcache) fun view _ => hout view,
    fun changes => hfollow changes fun change _ _ => hout _⟩

/-- A clean build removes a view that is in the cache: its guard refuses only where the folder of
the views is in the cache, not where the cache is in the folder of the views. -/
theorem exists_content?_listed_eq_none :
    ∃ (project : Project) (ws : Workspace) (views : List Place) (view : Place),
      project.discover ws.files = .ok views ∧ view ∈ views ∧
        ((project.build true).after ws).files.content? view = none := by
  let project : Project := ⟨[], ["v"], ["v", "cache"], ".anx.php", "", ""⟩
  let ws : Workspace :=
    ⟨.folder [("v", .folder [("cache", .folder [("a.anx.php", .file "x".toUTF8)])])], []⟩
  obtain ⟨views, hviews⟩ : ∃ views, project.discover ws.files = .ok views :=
    exists_discover rfl (by decide +kernel)
  refine ⟨project, ws, views, ["v", "cache", "a.anx.php"], hviews, ?_, ?_⟩
  · exact (mem_discover hviews _).mpr ⟨["cache", "a.anx.php"], rfl, by decide +kernel, rfl⟩
  · have hgone : ((project.build true).after ws).files.hasFile ["v", "cache", "a.anx.php"] =
        false := by
      decide +kernel
    exact Option.not_isSome_iff_eq_none.mp (by rw [← FileTree.hasFile, hgone]; simp)

end Project

end ViewCompiler
