import ViewCompiler.Proofs.Project.Listing
import ViewCompiler.Proofs.Project.Sources

/-!
# What failed operations leave

A build that is refused, because the views are missing or a clean build would remove them, is
refused before anything is changed (`refusesFirst_build`): looking and listing change nothing, and
nothing after them refuses. A view that is not compiled leaves all files as they were and makes at
most the folders for its output (`makesFolders_compileView`). A build that is not a clean one and
comes to its end has changed files only where it put outputs of views that did not fail, and has
made the file that keeps the cache out of version control if nothing was there (`changed_build`).
`failures_keep_files` is these together.
-/

namespace ViewCompiler

variable {α β : Type}

/-! ## Refusals -/

/-- The build ends for a cause that is looked for before anything is done. -/
def BuildError.isRefusal : BuildError → Bool
  | .viewsMissing _ | .unsafeClean .. => true
  | .patternRefused _ | .notBelow .. | .unusable _ | .file _ | .template _ => false

namespace Build

/-- Computations one after the other fail where one of them does. -/
theorem error_of_result_bind {m : Build α} {f : α → Build β} {error : BuildError} {ws : Workspace}
    (h : (m >>= f).result ws = .error error) :
    (m.result ws = .error error ∧ (m >>= f).after ws = m.after ws) ∨
      ∃ a, m.result ws = .ok a ∧ (f a).result (m.after ws) = .error error ∧
        (m >>= f).after ws = (f a).after (m.after ws) := by
  cases hm : m.result ws with
  | ok a =>
    rw [result_bind hm] at h
    exact .inr ⟨a, rfl, h, after_bind hm f⟩
  | error cause =>
    rw [result, run_bind, hm] at h
    obtain rfl : cause = error := Except.error.inj h
    exact .inl ⟨rfl, after_bind_error hm f⟩

/-- The computation does not refuse. -/
def NeverRefuses (m : Build α) : Prop :=
  ∀ ws error, m.result ws = .error error → error.isRefusal = false

/-- Where the computation refuses, it has changed nothing. -/
def RefusesFirst (m : Build α) : Prop :=
  ∀ ws error, m.result ws = .error error → error.isRefusal = true → m.after ws = ws

/-- Giving a value refuses nothing. -/
theorem neverRefuses_pure (a : α) : NeverRefuses (pure a : Build α) := nofun

/-- Logging refuses nothing. -/
theorem neverRefuses_report (event : Event) : NeverRefuses (report event) := nofun

/-- Steps that refuse nothing do so one after the other. -/
theorem NeverRefuses.bind {m : Build α} {f : α → Build β} (hm : NeverRefuses m)
    (hf : ∀ a, NeverRefuses (f a)) : NeverRefuses (m >>= f) := by
  intro ws error h
  rcases error_of_result_bind h with ⟨hfirst, -⟩ | ⟨a, -, hsecond, -⟩
  · exact hm ws error hfirst
  · exact hf a _ error hsecond

/-- Looking whether something is at a place does not refuse. -/
theorem neverRefuses_has (place : Place) : NeverRefuses (Build.has place) := by
  intro ws error h
  rw [Build.has, result_get_bind] at h
  split at h
  · cases h
  · cases h
    rfl
  · cases h

/-- Changing files may fail, but it refuses nothing. -/
theorem neverRefuses_changing (change : FileTree → Except FileError FileTree) :
    NeverRefuses (changing change) := by
  intro ws error h
  cases hchange : change ws.files with
  | ok files =>
    rw [result, run_changing_ok hchange] at h
    cases h
  | error cause =>
    rw [result, run_changing_error hchange] at h
    cases h
    rfl

/-- Making folders may fail, but it refuses nothing. -/
theorem neverRefuses_makeFolders (place : Place) : NeverRefuses (Build.makeFolders place) := by
  intro ws error h
  rw [Build.makeFolders, result_trying_bind] at h
  split at h
  · cases h
  · cases h
    rfl

/-- A step that refuses nothing refuses before it changes anything. -/
theorem NeverRefuses.refusesFirst {m : Build α} (h : NeverRefuses m) : RefusesFirst m := by
  intro ws error herror hrefusal
  rw [h ws error herror] at hrefusal
  cases hrefusal

/-- What follows a computation that changes nothing may refuse if it has changed nothing itself. -/
theorem RefusesFirst.bind_of_after {m : Build α} {f : α → Build β} (hm : ∀ ws, m.after ws = ws)
    (hf : ∀ a, RefusesFirst (f a)) : RefusesFirst (m >>= f) := by
  intro ws error h hrefusal
  rcases error_of_result_bind h with ⟨-, hafter⟩ | ⟨a, -, hsecond, hafter⟩
  · rw [hafter, hm]
  · rw [hm] at hsecond hafter
    rw [hafter]
    exact hf a ws error hsecond hrefusal

/-- What follows a computation that may refuse must not. -/
theorem RefusesFirst.bind {m : Build α} {f : α → Build β} (hm : RefusesFirst m)
    (hf : ∀ a, NeverRefuses (f a)) : RefusesFirst (m >>= f) := by
  intro ws error h hrefusal
  rcases error_of_result_bind h with ⟨hfirst, hafter⟩ | ⟨a, -, hsecond, -⟩
  · rw [hafter]
    exact hm ws error hfirst hrefusal
  · rw [hf a _ error hsecond] at hrefusal
    cases hrefusal

end Build

namespace Project

open Build

variable {project : Project}

/-! ## Builds that are refused -/

/-- Cleaning refuses before it removes anything. -/
theorem refusesFirst_clean : RefusesFirst project.clean := by
  refine .bind_of_after (after_has _) fun found => ?_
  cases found with
  | false => exact (neverRefuses_pure ()).refusesFirst
  | true =>
    simp only [if_true]
    split
    · exact .bind_of_after (fun ws => after_throw _ ws) fun _ =>
        (neverRefuses_changing _).refusesFirst
    · exact (neverRefuses_changing _).refusesFirst

/-- Making the cache refuses nothing. -/
theorem neverRefuses_prepareCache : NeverRefuses project.prepareCache := by
  refine (neverRefuses_makeFolders _).bind fun _ => (neverRefuses_has _).bind fun found => ?_
  cases found with
  | false => exact neverRefuses_changing _
  | true => exact neverRefuses_pure ()

/-- Compiling a view does not refuse. -/
theorem neverRefuses_compileView (view : Place) : NeverRefuses (project.compileView view) := by
  intro ws error h
  unfold compileView at h
  split at h
  · simp only [result_get_bind] at h
    split at h
    · cases h
    · split at h
      · cases h
        rfl
      · simp only [result_report_bind, result_trying_bind] at h
        split at h <;> cases h
  · cases h
    rfl

/-- Compiling views refuses nothing. -/
theorem neverRefuses_compileViews :
    ∀ views : List Place, NeverRefuses (project.compileViews views)
  | [] => neverRefuses_pure _
  | view :: views => by
    rw [compileViews_cons]
    exact (neverRefuses_compileView view).bind fun _ =>
      (neverRefuses_compileViews views).bind fun _ => neverRefuses_pure _

/-- **A build that is refused is refused before anything is changed.** -/
theorem refusesFirst_build (fresh : Bool) : RefusesFirst (project.build fresh) := by
  have hprepare (views : List Place) : NeverRefuses (do
      project.prepareCache
      if views.isEmpty then report .nothingToCompile) := by
    refine neverRefuses_prepareCache.bind fun _ => ?_
    split
    · exact neverRefuses_report _
    · exact neverRefuses_pure ()
  rw [build_eq]
  refine .bind_of_after after_listViews fun views => .bind ?_ fun _ => neverRefuses_compileViews _
  cases fresh with
  | false => exact (hprepare views).refusesFirst
  | true => exact refusesFirst_clean.bind fun _ => hprepare views

/-! ## Views that are not compiled -/

/-- **A view that is not compiled leaves all files as they were**: at most folders on the way to
its output were made. -/
theorem makesFolders_compileView {view : Place} {names : List String}
    (hnames : project.namesBelow? view = some names) {ws : Workspace}
    (h : ∀ output, (project.compileView view).result ws ≠ .ok (some output)) :
    FileTree.MakesFolders (project.output names).dropLast ws.files
      ((project.compileView view).after ws).files := by
  unfold compileView at h ⊢
  simp only [hnames, result_get_bind, after_get_bind] at h ⊢
  cases hread : readText ws.files view with
  | error cause => exact .refl _ _
  | ok template =>
    simp only [hread] at h ⊢
    cases hcompile : project.compile template with
    | error error => exact .refl _ _
    | ok compiled =>
      simp only [hcompile, result_report_bind, result_trying_bind, after_report_bind,
        after_trying_bind] at h ⊢
      cases hstore : (ws.files.store (project.output names) compiled.php.toUTF8).1 with
      | error error => exact FileTree.makesFolders_store hstore
      | ok _ =>
        rw [hstore] at h
        exact absurd rfl (h _)

/-- An output that is not removed leaves everything as it was. -/
theorem after_removeView_of_ne {view : Place} {ws : Workspace}
    (h : (project.removeView view).result ws ≠ .ok true) :
    (project.removeView view).after ws = ws := by
  cases hnames : project.namesBelow? view with
  | none =>
    unfold removeView
    rw [hnames]
    rfl
  | some names =>
    have houtcome := removalOutcome_removeView hnames ws
    generalize (project.removeView view).result ws = result at houtcome h
    generalize (project.removeView view).after ws = after at houtcome ⊢
    cases houtcome with
    | removed => exact absurd rfl h
    | kept => rfl

/-! ## Builds that come to their end -/

/-- Only views are among the errors. -/
theorem errors_subset :
    ∀ {views : List Place} {ws : Workspace} {summary : Summary},
      (project.compileViews views).result ws = .ok summary → summary.errors ⊆ views
  | [], _, _, h => by
    obtain rfl := Except.ok.inj h
    exact List.nil_subset _
  | view :: views, ws, summary, h => by
    obtain ⟨output, rest, -, hrest, rfl, -⟩ := exists_of_result_compileViews h
    have hsubset := errors_subset hrest
    cases output with
    | some _ => exact List.subset_cons_of_subset view hsubset
    | none => exact List.cons_subset_cons view hsubset

/-- A view that changes the content of a place is compiled, and the place is that of its output,
where a file is then. -/
theorem changed_compileView {view place : Place} {ws : Workspace}
    (h : ((project.compileView view).after ws).files.content? place ≠ ws.files.content? place) :
    (project.compileView view).result ws = .ok (some place) ∧
      project.outputOf? view = some place ∧
      ((project.compileView view).after ws).files.hasFile place = true := by
  cases hnames : project.namesBelow? view with
  | none =>
    unfold compileView at h
    rw [hnames] at h
    exact absurd rfl h
  | some names =>
    have houtcome := viewOutcome_compileView hnames ws
    generalize (project.compileView view).result ws = result at houtcome ⊢
    generalize (project.compileView view).after ws = after at houtcome h ⊢
    cases houtcome with
    | failed hcontent => exact absurd (hcontent place) h
    | refused => exact absurd rfl h
    | written _ _ _ hcontent =>
      by_cases hplace : place = project.output names
      · subst hplace
        refine ⟨rfl, by rw [outputOf?, hnames, Option.map_some], ?_⟩
        rw [FileTree.hasFile, hcontent, if_pos rfl]
        rfl
      · rw [hcontent, if_neg hplace] at h
        exact absurd rfl h

/-- **Compiling views changes the outputs of views that do not fail**, and nothing else. -/
theorem changed_compileViews {place : Place} :
    ∀ {views : List Place} {ws : Workspace} {summary : Summary}, views.Nodup →
      (project.compileViews views).result ws = .ok summary →
      ((project.compileViews views).after ws).files.content? place ≠ ws.files.content? place →
        ((project.compileViews views).after ws).files.hasFile place = true ∧
          ∃ view ∈ views, view ∉ summary.errors ∧ project.outputOf? view = some place
  | [], _, _, _, _, hchanged => absurd rfl hchanged
  | view :: views, ws, summary, hnodup, h, hchanged => by
    obtain ⟨hview, hnodup⟩ := List.nodup_cons.mp hnodup
    obtain ⟨output, rest, houtput, hrest, rfl, hafter⟩ := exists_of_result_compileViews h
    rw [hafter] at hchanged ⊢
    by_cases hlater : ((project.compileViews views).after
        ((project.compileView view).after ws)).files.content? place =
          ((project.compileView view).after ws).files.content? place
    · rw [hlater] at hchanged
      obtain ⟨hresult, hplace, hfile⟩ := changed_compileView hchanged
      obtain rfl : output = some place := Except.ok.inj (houtput.symm.trans hresult)
      refine ⟨by rwa [FileTree.hasFile, hlater], view, List.mem_cons_self, ?_, hplace⟩
      exact fun herror => hview (errors_subset hrest herror)
    · obtain ⟨hfile, other, hother, hok, hplace⟩ := changed_compileViews hnodup hrest hlater
      refine ⟨hfile, other, List.mem_cons_of_mem _ hother, ?_, hplace⟩
      cases output with
      | some _ => exact hok
      | none =>
        intro herror
        rcases List.mem_cons.mp herror with rfl | herror
        · exact hview hother
        · exact hok herror

/-- The file in the cache was not there before the cache was made if it is not there now. -/
theorem find?_ignoreFile {ws : Workspace}
    (hmake : (Build.makeFolders project.cache).result ws = .ok ())
    (hhas : (Build.has project.ignoreFile).result
      { ws with files := (ws.files.makeFolders project.cache).2 } = .ok false) :
    ws.files.find? project.ignoreFile = none := by
  have hmissing := find?_of_result_has hhas
  have hbelow := FileTree.find?_append_makeFolders (makeFolders_of_result hmake) ".gitignore" []
  rw [← ignoreFile] at hbelow
  rw [← hbelow]
  exact Option.not_isSome_iff_eq_none.mp (by rw [hmissing]; exact Bool.false_ne_true)

/-- Preparing the cache changes at most the file that keeps the cache out of version control, which
it makes where nothing is. -/
theorem changed_prepareCache {place : Place} {ws : Workspace}
    (h : (project.prepareCache.after ws).files.content? place ≠ ws.files.content? place) :
    (project.prepareCache.after ws).files.hasFile place = true ∧
      place = project.ignoreFile ∧ ws.files.find? place = none := by
  have hmade := after_makeFolders project.cache ws
  have hfolders := FileTree.content?_makeFolders project.cache ws.files place
  unfold prepareCache at h ⊢
  cases hmake : (Build.makeFolders project.cache).result ws with
  | error error =>
    rw [after_bind_error hmake, hmade] at h
    exact absurd hfolders h
  | ok _ =>
    rw [after_bind hmake, hmade] at h ⊢
    cases hhas : (Build.has project.ignoreFile).result
        { ws with files := (ws.files.makeFolders project.cache).2 } with
    | error error =>
      rw [after_bind_error hhas, after_has] at h
      exact absurd hfolders h
    | ok found =>
      rw [after_bind hhas, after_has] at h ⊢
      cases found with
      | true => exact absurd hfolders h
      | false =>
        simp only [Bool.not_false, if_true] at h ⊢
        cases hwrite : (ws.files.makeFolders project.cache).2.write project.ignoreFile
            "*".toUTF8 with
        | error error =>
          rw [after, run_changing_error hwrite] at h
          exact absurd hfolders h
        | ok files =>
          rw [after, run_changing_ok hwrite] at h ⊢
          have hcontent := FileTree.content?_write hwrite place
          by_cases hplace : place = project.ignoreFile
          · subst hplace
            rw [if_pos rfl] at hcontent
            exact ⟨by rw [FileTree.hasFile, hcontent]; rfl, rfl, find?_ignoreFile hmake hhas⟩
          · rw [if_neg hplace] at hcontent
            exact absurd (hcontent.trans hfolders) h

/-- A build that is not a clean one only prepares the cache before it compiles the views. -/
theorem files_opening {views : List Place} {ws : Workspace}
    (h : (project.opening false views).result ws = .ok ()) :
    ((project.opening false views).after ws).files = (project.prepareCache.after ws).files := by
  have hopening : project.opening false views = project.prepareCache >>= fun _ =>
      if views.isEmpty then report .nothingToCompile else pure () := rfl
  rw [hopening] at h ⊢
  obtain ⟨⟨⟩, hprepare, -⟩ := exists_of_result_bind h
  rw [after_bind hprepare]
  split <;> rfl

/-- **A build that is not a clean one deletes no file**, and changes or makes only outputs of views
that did not fail and the file that keeps the cache out of version control. -/
theorem changed_build {ws : Workspace} {summary : Summary}
    (h : (project.build false).result ws = .ok summary) :
    ∃ views, project.discover ws.files = .ok views ∧ ∀ place,
      ((project.build false).after ws).files.content? place ≠ ws.files.content? place →
        ((project.build false).after ws).files.hasFile place = true ∧
          (place = project.ignoreFile ∧ ws.files.find? place = none ∨
            ∃ view ∈ views, view ∉ summary.errors ∧ project.outputOf? view = some place) := by
  rw [build_eq] at h ⊢
  obtain ⟨views, hlist, h⟩ := exists_of_result_bind h
  rw [after_listViews] at h
  obtain ⟨⟨⟩, hopening, hcompile⟩ := exists_of_result_bind h
  have hviews := result_listViews.mp hlist
  refine ⟨views, hviews, fun place hchanged => ?_⟩
  rw [after_bind hlist, after_listViews, after_bind hopening] at hchanged ⊢
  obtain ⟨below, hbelow, -, hnodup⟩ := exists_of_discover hviews
  have hnodup : views.Nodup := by
    rw [hbelow]
    exact hnodup.map fun _ _ heq => List.append_cancel_left heq
  have hprepare := files_opening hopening
  by_cases hlater : ((project.compileViews views).after
      ((project.opening false views).after ws)).files.content? place =
        ((project.opening false views).after ws).files.content? place
  · rw [hlater, hprepare] at hchanged
    obtain ⟨hfile, hplace⟩ := changed_prepareCache hchanged
    exact ⟨by rwa [FileTree.hasFile, hlater, hprepare], .inl hplace⟩
  · obtain ⟨hfile, hother⟩ := changed_compileViews hnodup hcompile hlater
    exact ⟨hfile, .inr hother⟩

/-! ## Failed operations -/

/-- **Failed operations leave the files as they were.** A build that is refused changes nothing. A
view that is not compiled leaves all contents, and what was made are at most folders on the way to
its output. An output that is not removed leaves everything. A build that is not a clean one and
comes to its end changes only outputs of views that did not fail, and the file that keeps the cache
out of version control if nothing was there, and a file is at every place that it changes. This is
about settings that are Unicode text and about logging that does not fail: a compiled form with a
surrogate in it has no encoding, and is found to have none only when its output was emptied. -/
theorem failures_keep_files (project : Project) (ws : Workspace) :
    (∀ fresh error, (project.build fresh).result ws = .error error → error.isRefusal = true →
      (project.build fresh).after ws = ws) ∧
    (∀ path, (∀ output,
        (project.locate path >>= project.compileView).result ws ≠ .ok (some output)) →
      (project.locate path >>= project.compileView).after ws = ws ∨
        ∃ output, project.outputOf? (path.place project.base) = some output ∧
          FileTree.MakesFolders output.dropLast ws.files
            ((project.locate path >>= project.compileView).after ws).files) ∧
    (∀ path, (project.locate path >>= project.removeView).result ws ≠ .ok true →
      (project.locate path >>= project.removeView).after ws = ws) ∧
    ∀ summary, (project.build false).result ws = .ok summary →
      ∃ views, project.discover ws.files = .ok views ∧ ∀ place,
        ((project.build false).after ws).files.content? place ≠ ws.files.content? place →
          ((project.build false).after ws).files.hasFile place = true ∧
            (place = project.ignoreFile ∧ ws.files.find? place = none ∨
              ∃ view ∈ views, view ∉ summary.errors ∧ project.outputOf? view = some place) := by
  refine ⟨fun fresh => refusesFirst_build fresh ws, fun path h => ?_, fun path h => ?_,
    fun summary => changed_build⟩
  · cases hlocate : (project.locate path).result ws with
    | error error => exact .inl (by rw [after_bind_error hlocate, after_locate])
    | ok view =>
      obtain ⟨-, rfl⟩ := result_locate.mp hlocate
      simp only [result_bind hlocate, after_bind hlocate, after_locate] at h ⊢
      cases hnames : project.namesBelow? (path.place project.base) with
      | none =>
        unfold compileView
        rw [hnames]
        exact .inl rfl
      | some names =>
        refine .inr ⟨project.output names, ?_, makesFolders_compileView hnames h⟩
        rw [outputOf?, hnames, Option.map_some]
  · cases hlocate : (project.locate path).result ws with
    | error error => rw [after_bind_error hlocate, after_locate]
    | ok view =>
      rw [result_bind hlocate, after_locate] at h
      rw [after_bind hlocate, after_locate]
      exact after_removeView_of_ne h

end Project

end ViewCompiler
