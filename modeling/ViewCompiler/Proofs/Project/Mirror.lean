import ViewCompiler.Proofs.Project.Sources

/-!
# What a cache mirrors

A cache mirrors the contents of views if every view's output holds its compiled form, the file that
keeps the cache out of version control is there, and there is nothing else (`Project.Mirrors`). Two
caches that mirror the same contents are equal (`Mirrors.content?_eq`). Outputs of different views
are different files, so a change of one view's output keeps what the others mirror
(`Mirrors.update`). A clean build without failures leaves a cache that mirrors the views
(`mirrors_build`), whatever was there before.
-/

namespace ViewCompiler.Project

open Build

variable {project : Project}

/-! ## Outputs -/

/-- A project whose cache is apart from its views, and whose extension is a text of plain
characters. -/
structure IsRegular (project : Project) : Prop extends project.IsApart where
  extension_ne : project.extension ≠ ""
  isPlain : ∀ c ∈ project.extension.toList, isPlain c = true

/-- The names lead from the folder of the views to a view. -/
def isViewNames (project : Project) (names : List String) : Bool :=
  isView project.extension (names.getLastD "")

/-- A view's name is its output's, with the extension in place of `.php`. -/
theorem toList_outputName {extension name : String} (hextension : extension ≠ "")
    (h : isView extension name = true) :
    ∃ stem, name.toList = stem ++ extension.toList ∧
      (outputName extension name).toList = stem ++ ".php".toList := by
  rw [isView, Bool.and_eq_true, List.isSuffixOf_iff_suffix] at h
  obtain ⟨stem, hstem⟩ := h.2
  refine ⟨stem, hstem.symm, ?_⟩
  have hlength : name.length - extension.length = stem.length := by
    rw [← String.length_toList, ← String.length_toList, ← hstem, List.length_append]
    omega
  have hempty : extension.isEmpty = false := by
    simpa [String.isEmpty_iff] using hextension
  rw [outputName, if_neg (by simp [hempty]), String.toList_append, String.toList_ofList, hlength,
    ← hstem, List.take_left]

/-- Names that lead to a view end with the view's name. -/
theorem eq_dropLast_append {names : List String} (h : project.isViewNames names = true) :
    names = names.dropLast ++ [names.getLastD ""] := by
  have hne : names ≠ [] := by
    rintro rfl
    simp [isViewNames, isView] at h
  rw [List.getLastD_eq_getLast?, List.getLast?_eq_some_getLast hne, Option.getD_some,
    List.dropLast_concat_getLast hne]

/-- Different views have different outputs. -/
theorem outputNames_injective (hextension : project.extension ≠ "") {names others : List String}
    (hnames : project.isViewNames names = true) (hothers : project.isViewNames others = true)
    (h : outputNames project.extension names = outputNames project.extension others) :
    names = others := by
  obtain ⟨hfolder, hlast⟩ := List.append_inj' h rfl
  obtain ⟨stem, hname, hout⟩ := toList_outputName hextension hnames
  obtain ⟨stem', hname', hout'⟩ := toList_outputName hextension hothers
  have hstem : stem = stem' := by
    rw [List.singleton_inj.mp hlast, hout'] at hout
    exact (List.append_cancel_right hout).symm
  have hlast : names.getLastD "" = others.getLastD "" := by
    rw [← String.toList_inj, hname, hname', hstem]
  rw [eq_dropLast_append hnames, eq_dropLast_append hothers, hfolder, hlast]

/-- No output is the file that keeps the cache out of version control. -/
theorem outputNames_ne_ignore (hextension : project.extension ≠ "") {names : List String}
    (hnames : project.isViewNames names = true) :
    outputNames project.extension names ≠ [".gitignore"] := by
  intro h
  obtain ⟨-, hlast⟩ := List.append_inj' (h.trans (List.nil_append _).symm) rfl
  obtain ⟨stem, -, hout⟩ := toList_outputName hextension hnames
  rw [List.singleton_inj.mp hlast] at hout
  have hsuffix : ".php".toList <:+ ".gitignore".toList := ⟨stem, hout.symm⟩
  revert hsuffix
  decide

/-! ## Mirrors -/

/-- The cache holds the compiled forms of the views with these contents, and nothing else but the
file that keeps it out of version control. -/
structure Mirrors (project : Project) (source : List String → Option ByteArray)
    (files : FileTree) : Prop where
  ignoreFile : files.content? project.ignoreFile = some "*".toUTF8
  output : ∀ names, project.isViewNames names = true →
    files.content? (project.output names) = (source names).bind project.rendered?
  rendered : ∀ names content, project.isViewNames names = true → source names = some content →
    project.rendered? content ≠ none ∧ isPlaceUsable (project.output names) = true
  other : ∀ names, names ≠ [".gitignore"] →
    (∀ view, project.isViewNames view = true → outputNames project.extension view ≠ names) →
      files.content? (project.cache ++ names) = none

/-- Only the contents in the cache count. -/
theorem Mirrors.of_content?_eq {source : List String → Option ByteArray} {files after : FileTree}
    (h : project.Mirrors source files)
    (hfiles : ∀ names, after.content? (project.cache ++ names) =
      files.content? (project.cache ++ names)) : project.Mirrors source after where
  ignoreFile := (hfiles _).trans h.ignoreFile
  output names hnames := (hfiles _).trans (h.output names hnames)
  rendered := h.rendered
  other names hne hview := (hfiles names).trans (h.other names hne hview)

/-- Only the contents of views count. -/
theorem Mirrors.of_source_eq {source other : List String → Option ByteArray} {files : FileTree}
    (h : project.Mirrors source files)
    (hsource : ∀ names, project.isViewNames names = true → other names = source names) :
    project.Mirrors other files where
  ignoreFile := h.ignoreFile
  output names hnames := by rw [h.output names hnames, hsource names hnames]
  rendered names content hnames hcontent :=
    h.rendered names content hnames ((hsource names hnames).symm.trans hcontent)
  other := h.other

/-- Two caches that mirror the same contents are equal. -/
theorem Mirrors.content?_eq {source : List String → Option ByteArray} {files other : FileTree}
    (h : project.Mirrors source files) (hother : project.Mirrors source other)
    (names : List String) :
    files.content? (project.cache ++ names) = other.content? (project.cache ++ names) := by
  by_cases hignore : names = [".gitignore"]
  · subst hignore
    exact h.ignoreFile.trans hother.ignoreFile.symm
  · by_cases hview : ∃ view, project.isViewNames view = true ∧
        outputNames project.extension view = names
    · obtain ⟨view, hnames, rfl⟩ := hview
      exact (h.output view hnames).trans (hother.output view hnames).symm
    · have hnone (view : List String) (hnames : project.isViewNames view = true) :
          outputNames project.extension view ≠ names := fun heq => hview ⟨view, hnames, heq⟩
      rw [h.other names hignore hnone, hother.other names hignore hnone]

/-- After a change of one output, the cache mirrors the other views as before, and the one view
with the content that the output is the compiled form of, or without any. -/
theorem Mirrors.update (hproject : project.IsRegular) {source : List String → Option ByteArray}
    {files after : FileTree} (h : project.Mirrors source files) {names : List String}
    (hnames : project.isViewNames names = true) {content? : Option ByteArray}
    (hrendered : ∀ content, content? = some content →
      project.rendered? content ≠ none ∧ isPlaceUsable (project.output names) = true)
    (hafter : ∀ place, after.content? place =
      if place = project.output names then content?.bind project.rendered?
      else files.content? place) :
    project.Mirrors (fun view => if view = names then content? else source view) after where
  ignoreFile := by
    have hne : project.ignoreFile ≠ project.output names := fun heq =>
      outputNames_ne_ignore hproject.extension_ne hnames (List.append_cancel_left heq).symm
    rw [hafter, if_neg hne, h.ignoreFile]
  output view hview := by
    rw [hafter]
    by_cases heq : view = names
    · subst heq
      simp
    · have hne : project.output view ≠ project.output names := fun hout =>
        heq (outputNames_injective hproject.extension_ne hview hnames
          (List.append_cancel_left hout))
      rw [if_neg hne, if_neg heq, h.output view hview]
  rendered view content hview hcontent := by
    by_cases heq : view = names
    · subst heq
      exact hrendered content (by simpa using hcontent)
    · exact h.rendered view content hview (by simpa [heq] using hcontent)
  other view hne hview := by
    have hout : project.cache ++ view ≠ project.output names := fun heq =>
      hview names hnames (List.append_cancel_left heq).symm
    rw [hafter, if_neg hout, h.other view hne hview]

/-! ## Steps -/

/-- A view that is compiled is mirrored with its content. -/
theorem mirrors_compileView (hproject : project.IsRegular)
    {source : List String → Option ByteArray} {ws : Workspace} {names : List String}
    {output : Place} (h : project.Mirrors source ws.files)
    (hnames : project.isViewNames names = true)
    (hresult : (project.compileView (project.views ++ names)).result ws = .ok (some output)) :
    project.Mirrors
      (fun view => if view =
        names then ws.files.content? (project.views ++ names) else source view)
      ((project.compileView (project.views ++ names)).after ws).files := by
  have houtcome := viewOutcome_compileView (project.namesBelow?_append names) ws
  rw [hresult] at houtcome
  cases houtcome with
  | written hview hrendered husable hcontent =>
    refine h.update hproject hnames (fun content heq => ?_) fun place => ?_
    · obtain rfl := Option.some.inj (hview.symm.trans heq)
      exact ⟨by rw [hrendered]; nofun, husable⟩
    · rw [hcontent, hview, Option.bind_some, hrendered]

/-- Views that are compiled without failures are mirrored with their contents. -/
theorem mirrors_compileViews (hproject : project.IsRegular)
    {target : List String → Option ByteArray} :
    ∀ {views : List Place} {source : List String → Option ByteArray} {ws : Workspace}
      {summary : Summary},
      (∀ view ∈ views, ∃ names, view = project.views ++ names ∧ project.isViewNames names = true) →
      (∀ names, ws.files.content? (project.views ++ names) = target names) →
      project.Mirrors source ws.files →
      (project.compileViews views).result ws = .ok summary → summary.errors = [] →
        project.Mirrors
          (fun names => if project.views ++ names ∈ views then target names else source names)
          ((project.compileViews views).after ws).files
  | [], _, _, _, _, _, h, _, _ => h.of_source_eq fun _ _ => by simp
  | view :: views, source, ws, summary, hviews, htarget, h, hresult, herrors => by
    rw [List.forall_mem_cons] at hviews
    obtain ⟨⟨names, rfl, hnames⟩, hviews⟩ := hviews
    obtain ⟨output, rest, houtput, hrest, rfl, hafter⟩ := exists_of_result_compileViews hresult
    rw [hafter]
    cases output with
    | none => cases herrors
    | some output =>
      have hstep := mirrors_compileView hproject h hnames houtput
      have hkept (names' : List String) : ((project.compileView (project.views ++ names)).after
          ws).files.content? (project.views ++ names') = target names' :=
        (hproject.content?_compileView _ names' ws).trans (htarget names')
      refine (mirrors_compileViews hproject hviews hkept hstep hrest herrors).of_source_eq
        fun view _ => ?_
      by_cases heq : view = names
      · subst heq
        simp [htarget]
      · simp [heq]

/-! ## A clean build -/

/-- Nothing is left in a cache that was cleaned. -/
theorem find?_of_clean {ws : Workspace} (h : project.clean.result ws = .ok ()) :
    (∀ name below,
      (project.clean.after ws).files.find? (project.cache ++ name :: below) = none) ∧
      ∀ names, (project.clean.after ws).files.content? (project.cache ++ names) = none := by
  unfold clean at h ⊢
  obtain ⟨found, hhas, h⟩ := exists_of_result_bind h
  have hfound := find?_of_result_has hhas
  rw [after_bind hhas]
  rw [after_has] at h ⊢
  cases found with
  | false =>
    have hnone : ws.files.find? project.cache = none := by simpa using hfound
    simp [FileTree.content?, FileTree.find?_append, hnone]
  | true =>
    simp only [if_true] at h ⊢
    split at h
    · cases h
    · next hviews =>
      rw [if_neg hviews]
      cases hremove : ws.files.removeFolder project.cache with
      | error error =>
        rw [result, run_changing_error hremove] at h
        cases h
      | ok files =>
        rw [after, run_changing_ok hremove]
        exact ⟨FileTree.find?_removeFolder hremove, (FileTree.content?_removeFolder hremove).1⟩

/-- A cache that was cleaned and prepared mirrors no views. -/
theorem mirrors_prepareCache (hproject : project.IsRegular) {ws : Workspace}
    (hempty : ∀ name below, ws.files.find? (project.cache ++ name :: below) = none)
    (hnone : ∀ names, ws.files.content? (project.cache ++ names) = none)
    (h : project.prepareCache.result ws = .ok ()) :
    project.Mirrors (fun _ => none) (project.prepareCache.after ws).files := by
  unfold prepareCache at h ⊢
  obtain ⟨_, hmake, h⟩ := exists_of_result_bind h
  obtain ⟨found, hhas, h⟩ := exists_of_result_bind h
  have hfound := find?_of_result_has hhas
  rw [after_bind hmake, after_bind hhas]
  rw [after_has, after_makeFolders] at h ⊢
  rw [after_makeFolders] at hfound
  have hignore : (ws.files.makeFolders project.cache).2.find? project.ignoreFile = none :=
    (FileTree.find?_append_makeFolders (makeFolders_of_result hmake) _ _).trans
      (hempty ".gitignore" [])
  obtain rfl : found = false := by rw [← hfound, hignore]; rfl
  simp only [Bool.not_false, if_true] at h ⊢
  cases hwrite : (ws.files.makeFolders project.cache).2.write project.ignoreFile "*".toUTF8 with
  | error error =>
    rw [result, run_changing_error hwrite] at h
    cases h
  | ok files =>
    rw [after, run_changing_ok hwrite]
    have hcontent (names : List String) : files.content? (project.cache ++ names) =
        if names = [".gitignore"] then some "*".toUTF8 else none := by
      rw [FileTree.content?_write hwrite, FileTree.content?_makeFolders, hnone, ignoreFile]
      simp only [List.append_cancel_left_eq]
    exact {
      ignoreFile := hcontent [".gitignore"]
      output names hnames := by
        rw [output, hcontent, if_neg (outputNames_ne_ignore hproject.extension_ne hnames)]
        rfl
      rendered _ content _ h := absurd h (Option.some_ne_none content).symm
      other names hne _ := by rw [hcontent, if_neg hne] }

/-- What a clean build does before it compiles the views leaves a cache that mirrors none. -/
theorem mirrors_opening (hproject : project.IsRegular) {ws : Workspace} {views : List Place}
    (h : (project.opening true views).result ws = .ok ()) :
    project.Mirrors (fun _ => none) ((project.opening true views).after ws).files := by
  unfold opening at h ⊢
  simp only [if_true] at h ⊢
  obtain ⟨_, hclean, h⟩ := exists_of_result_bind h
  obtain ⟨_, hprepare, -⟩ := exists_of_result_bind h
  obtain ⟨hempty, hnone⟩ := find?_of_clean hclean
  rw [after_bind hclean, after_bind hprepare]
  have hprepared := mirrors_prepareCache hproject hempty hnone hprepare
  split
  · exact hprepared
  · exact hprepared

/-- **A clean build without failures leaves a cache that mirrors the views**, whatever was in the
cache before. -/
theorem mirrors_build (hproject : project.IsRegular) {ws : Workspace} {summary : Summary}
    (hresult : (project.build true).result ws = .ok summary) (hok : summary.ok = true) :
    project.Mirrors (fun names => ws.files.content? (project.views ++ names))
      ((project.build true).after ws).files := by
  rw [build_eq] at hresult ⊢
  obtain ⟨views, hlist, hresult⟩ := exists_of_result_bind hresult
  rw [after_listViews] at hresult
  obtain ⟨_, hopening, hresult⟩ := exists_of_result_bind hresult
  rw [after_bind hlist, after_listViews, after_bind hopening]
  have hmem := mem_discover (result_listViews.mp hlist)
  have hviews (view : Place) (hview : view ∈ views) :
      ∃ names, view = project.views ++ names ∧ project.isViewNames names = true := by
    obtain ⟨names, rfl, hlisted, -⟩ := (hmem view).mp hview
    exact ⟨names, rfl, by rwa [isListed_eq_isView hproject.isPlain] at hlisted⟩
  have hsource (names : List String) (hnames : project.isViewNames names = true) :
      ws.files.content? (project.views ++ names) =
        if project.views ++ names ∈ views then ws.files.content? (project.views ++ names)
        else none := by
    split
    · rfl
    · next hother =>
      refine Option.not_isSome_iff_eq_none.mp fun hfile => hother ((hmem _).mpr ?_)
      exact ⟨names, rfl, (isListed_eq_isView hproject.isPlain _).trans hnames, hfile⟩
  exact (mirrors_compileViews hproject hviews (fun names => hproject.content?_opening names ws)
    (mirrors_opening hproject hopening) hresult (List.isEmpty_iff.mp hok)).of_source_eq hsource

end ViewCompiler.Project
