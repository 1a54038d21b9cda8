import ViewCompiler.Proofs.Compile.Totality
import ViewCompiler.Proofs.FileTree.Making
import ViewCompiler.Proofs.Project.Following
import ViewCompiler.Proofs.Project.Listing

/-!
# What a build tells of the views

A build of a project whose cache can be made (`CanPrepare`) gets to the views, and compiles them
one after the other. Each view comes to its turn in the workspace that the turns before it leave
(`turns`), with the content that it had at the start. A view that cannot be read, is no text or has
an output that cannot be written fails and the next one has its turn, but a view that the compiler
does not take ends the build (`exists_result_compileView_iff`). So there is a summary if the
compiler takes every view that is a text, and the summary counts every view once and lists those
that failed, and the output of every other view holds its compiled form (`isSummary_build`).
-/

namespace ViewCompiler

/-! ## Computations that succeed -/

namespace Build

/-- A place within the limits can be looked at. -/
theorem exists_result_has {place : Place} (husable : isPlaceUsable place = true)
    (ws : Workspace) : ∃ found, (Build.has place).result ws = .ok found := by
  have hlook := FileTree.look_ne_tooLong husable ws.files
  rw [Build.has, result_get_bind]
  split
  · exact ⟨true, rfl⟩
  · next heq => exact absurd heq hlook
  · exact ⟨false, rfl⟩

/-- A change that can be made is made. -/
theorem result_changing_ok {change : FileTree → Except FileError FileTree} {files : FileTree}
    {ws : Workspace} (h : change ws.files = .ok files) : (changing change).result ws = .ok () := by
  rw [result, run_changing_ok h]

/-- A folder can be made at a clear place within the limits. -/
theorem result_makeFolders {place : Place} {ws : Workspace} (husable : isPlaceUsable place = true)
    (hclear : ws.files.IsClear place) : (Build.makeFolders place).result ws = .ok () := by
  rw [Build.makeFolders, result_trying_bind, FileTree.makeFolders_of_isClear husable hclear]
  rfl

end Build

namespace Project

open Build
open Compile (ClosesNothing exists_compiled_iff)
open Template (lexemes)

variable {project : Project}

/-! ## Opening the cache -/

/-- The cache can be made, with the file that keeps it out of version control. -/
structure CanPrepare (project : Project) (files : FileTree) : Prop where
  cache : isPlaceUsable project.cache = true
  ignoreFile : isPlaceUsable project.ignoreFile = true
  clear : files.IsClear project.cache

/-- A cache that can be made is cleaned, and can be made afterwards. -/
theorem CanPrepare.clean (hproject : project.IsApart) {ws : Workspace}
    (h : project.CanPrepare ws.files) :
    project.clean.result ws = .ok () ∧ project.CanPrepare (project.clean.after ws).files := by
  obtain ⟨found, hhas⟩ := exists_result_has h.cache ws
  have hfound := find?_of_result_has hhas
  unfold Project.clean
  rw [result_bind hhas, after_bind hhas, after_has]
  cases found with
  | false => exact ⟨rfl, h⟩
  | true =>
    obtain ⟨tree, htree⟩ := Option.isSome_iff_exists.mp hfound
    obtain ⟨entries, rfl⟩ := h.clear.exists_folder htree
    obtain ⟨files, hfiles⟩ : ∃ files, ws.files.removeFolder project.cache = .ok files :=
      FileTree.exists_change rfl h.cache htree
    have hviews : ¬ project.cache.isPrefixOf project.views = true := fun habove =>
      hproject.cache (List.isPrefixOf_iff_prefix.mp habove)
    simp only [if_true, if_neg hviews]
    refine ⟨result_changing_ok hfiles, h.cache, h.ignoreFile, fun above habove => ?_⟩
    obtain ⟨hgone, hother⟩ := FileTree.content?_removeFolder hfiles
    rw [after, run_changing_ok hfiles]
    by_cases hbelow : project.cache <+: above
    · obtain ⟨below, rfl⟩ := hbelow
      exact hgone below
    · exact (hother above hbelow).trans (h.clear above habove)

/-- A cache that can be made is prepared. -/
theorem CanPrepare.prepareCache {ws : Workspace} (h : project.CanPrepare ws.files) :
    project.prepareCache.result ws = .ok () := by
  have hmake := result_makeFolders h.cache h.clear
  obtain ⟨found, hhas⟩ :=
    exists_result_has h.ignoreFile ((Build.makeFolders project.cache).after ws)
  have hfound := find?_of_result_has hhas
  unfold Project.prepareCache
  rw [result_bind hmake, result_bind hhas, after_has]
  rw [after_makeFolders] at hfound ⊢
  cases found with
  | true => rfl
  | false =>
    obtain ⟨entries, hfolder⟩ := FileTree.exists_folder_of_makeFolders h.cache h.clear
    have hmissing : (ws.files.makeFolders project.cache).2.find? project.ignoreFile = none := by
      simpa using hfound
    obtain ⟨files, hfiles⟩ := FileTree.exists_write "*".toUTF8 h.ignoreFile hfolder hmissing
    exact result_changing_ok hfiles

/-- A build of a project whose cache can be made gets to the views. -/
theorem result_opening (hproject : project.IsApart) {ws : Workspace}
    (h : project.CanPrepare ws.files) (fresh : Bool) (views : List Place) :
    (project.opening fresh views).result ws = .ok () := by
  have hrest {start : Workspace} (hstart : project.CanPrepare start.files) :
      (do
        project.prepareCache
        if views.isEmpty then report .nothingToCompile : Build Unit).result start = .ok () := by
    rw [result_bind hstart.prepareCache]
    split <;> rfl
  cases fresh with
  | false => exact hrest h
  | true =>
    obtain ⟨hclean, hafter⟩ := h.clean hproject
    exact (result_bind hclean _).trans (hrest hafter)

/-! ## Turns -/

/-- The compiler takes the view, if it is a text: none of its closing directives closes nothing. -/
def IsCompilable (files : FileTree) (view : Place) : Prop :=
  ∀ template, readText files view = .ok template → ∀ l ∈ lexemes template, ¬ ClosesNothing l

/-- Whether a view is compilable depends on its content only. -/
theorem isCompilable_congr {files after : FileTree} {view : Place}
    (h : after.content? view = files.content? view) :
    IsCompilable after view ↔ IsCompilable files view := by
  simp only [IsCompilable, readText_eq_ok_iff, h]

/-- A view that is a text is compilable if the text is compiled. -/
theorem isCompilable_iff_of_readText {files : FileTree} {view : Place} {template : String}
    (h : readText files view = .ok template) (project : Project) :
    IsCompilable files view ↔ ∃ compiled, project.compile template = .ok compiled := by
  rw [IsCompilable, h]
  simp only [Except.ok.injEq, forall_eq']
  exact (exists_compiled_iff ..).symm

/-- **Only the compiler ends the turn of a view with an error.** -/
theorem exists_result_compileView_iff {view : Place} {names : List String}
    (hnames : project.namesBelow? view = some names) (ws : Workspace) :
    (∃ output, (project.compileView view).result ws = .ok output) ↔
      IsCompilable ws.files view := by
  unfold compileView
  simp only [hnames, result_get_bind]
  cases hread : readText ws.files view with
  | error cause =>
    exact iff_of_true ⟨none, rfl⟩ fun template h => nomatch hread.symm.trans h
  | ok template =>
    rw [isCompilable_iff_of_readText hread project]
    cases hcompile : project.compile template with
    | error error =>
      simp only [hcompile, result_throw]
      exact iff_of_false (fun ⟨_, h⟩ => nomatch h) (fun ⟨_, h⟩ => nomatch h)
    | ok compiled =>
      refine iff_of_true ?_ ⟨compiled, rfl⟩
      simp only [hcompile, result_report_bind, result_trying_bind]
      split
      · exact ⟨none, rfl⟩
      · exact ⟨some (project.output names), rfl⟩

/-- Views with the workspaces in which they come to their turns. -/
def turns (project : Project) : List Place → Workspace → List (Place × Workspace)
  | [], _ => []
  | view :: views, ws => (view, ws) :: turns project views ((project.compileView view).after ws)

/-- The view fails at its turn. -/
def fails (project : Project) (turn : Place × Workspace) : Bool :=
  match (project.compileView turn.1).result turn.2 with
  | .ok none => true
  | .ok (some _) | .error _ => false

/-! ## Views one after the other -/

/-- **Each view is counted once**, as compiled or as one of the errors, and the errors are the
views that failed at their turns. -/
theorem errors_compileViews :
    ∀ {views : List Place} {ws : Workspace} {summary : Summary},
      (project.compileViews views).result ws = .ok summary →
        summary.compiled + summary.errors.length = views.length ∧
          summary.errors = ((project.turns views ws).filter project.fails).map (·.1)
  | [], ws, summary, h => by
    obtain rfl := Except.ok.inj h
    exact ⟨rfl, rfl⟩
  | view :: views, ws, summary, h => by
    obtain ⟨output, rest, houtput, hrest, rfl, -⟩ := exists_of_result_compileViews h
    obtain ⟨hcount, herrors⟩ := errors_compileViews hrest
    rw [turns, List.length_cons]
    cases output with
    | none =>
      have hfails : project.fails (view, ws) = true := by rw [fails, houtput]
      rw [List.filter_cons_of_pos hfails, List.map_cons, ← herrors]
      simp only [Summary.adding, List.length_cons, and_true]
      omega
    | some place =>
      have hfails : ¬ project.fails (view, ws) = true := by simp [fails, houtput]
      rw [List.filter_cons_of_neg hfails, ← herrors]
      simp only [Summary.adding, and_true]
      omega

/-- **Views are compiled to the end if the compiler takes each that is a text**: the views after
the first have the same contents at their turns. -/
theorem exists_result_compileViews_iff (hproject : project.IsApart) :
    ∀ {views : List Place} {ws : Workspace},
      (∀ view ∈ views, ∃ names, view = project.views ++ names) →
        ((∃ summary, (project.compileViews views).result ws = .ok summary) ↔
          ∀ view ∈ views, IsCompilable ws.files view)
  | [], ws, _ => iff_of_true ⟨⟨0, []⟩, rfl⟩ fun _ h => absurd h List.not_mem_nil
  | view :: views, ws, hviews => by
    rw [List.forall_mem_cons] at hviews ⊢
    obtain ⟨⟨names, rfl⟩, hviews⟩ := hviews
    have hfirst := exists_result_compileView_iff (project.namesBelow?_append names) ws
    generalize hstart : (project.compileView (project.views ++ names)).after ws = start
    have hrest : (∃ summary, (project.compileViews views).result start = .ok summary) ↔
        ∀ other ∈ views, IsCompilable ws.files other := by
      rw [exists_result_compileViews_iff hproject hviews]
      refine forall₂_congr fun other hother => ?_
      obtain ⟨below, rfl⟩ := hviews other hother
      exact isCompilable_congr (hstart ▸ hproject.content?_compileView _ below ws)
    rw [← hfirst, ← hrest]
    constructor
    · rintro ⟨summary, h⟩
      obtain ⟨output, rest, houtput, hrest, -, -⟩ := exists_of_result_compileViews h
      exact ⟨⟨output, houtput⟩, rest, hstart ▸ hrest⟩
    · rintro ⟨⟨output, houtput⟩, rest, hrest⟩
      refine ⟨rest.adding (project.views ++ names) output, ?_⟩
      rw [compileViews_cons, result_bind houtput, hstart, result_bind hrest, result_pure]

/-- The output of a view keeps its content while other views are compiled. -/
theorem content?_output_compileViews (hproject : project.IsRegular) {views : List Place}
    (hviews : ∀ view ∈ views, ∃ names, view = project.views ++ names ∧
      project.isViewNames names = true) {names : List String}
    (hnames : project.isViewNames names = true) (hother : project.views ++ names ∉ views)
    (ws : Workspace) :
    ((project.compileViews views).after ws).files.content? (project.output names) =
      ws.files.content? (project.output names) := by
  refine keeps_compileViews (fun view hview hout => ?_) ws rfl
  obtain ⟨below, rfl, hbelow⟩ := hviews view hview
  rw [outputOf?, namesBelow?_append, Option.map_some, Option.some.injEq] at hout
  obtain rfl : below = names := outputNames_injective hproject.extension_ne hbelow hnames
    (List.append_cancel_left hout)
  exact hother hview

/-- The output of a view that is compiled holds its compiled form. -/
theorem exists_output_compileView {ws : Workspace} {names : List String} {output : Place}
    (h : (project.compileView (project.views ++ names)).result ws = .ok (some output)) :
    ∃ content php, ws.files.content? (project.views ++ names) = some content ∧
      project.rendered? content = some php ∧
      ((project.compileView (project.views ++ names)).after ws).files.content?
        (project.output names) = some php := by
  have houtcome := viewOutcome_compileView (project.namesBelow?_append names) ws
  rw [h] at houtcome
  cases houtcome with
  | written hview hrendered _ hcontent =>
    exact ⟨_, _, hview, hrendered, by rw [hcontent, if_pos rfl]⟩

/-- **Every view that is not among the errors has its compiled form at its output** when all views
are compiled. -/
theorem exists_output_compileViews (hproject : project.IsRegular) :
    ∀ {views : List Place} {ws : Workspace} {summary : Summary},
      (∀ view ∈ views, ∃ names, view = project.views ++ names ∧
        project.isViewNames names = true) → views.Nodup →
      (project.compileViews views).result ws = .ok summary →
        ∀ names, project.views ++ names ∈ views → project.views ++ names ∉ summary.errors →
          ∃ content php, ws.files.content? (project.views ++ names) = some content ∧
            project.rendered? content = some php ∧
            ((project.compileViews views).after ws).files.content? (project.output names) =
              some php
  | [], _, _, _, _, _, _, hmem, _ => absurd hmem List.not_mem_nil
  | view :: views, ws, summary, hviews, hnodup, h, names, hmem, hok => by
    rw [List.forall_mem_cons] at hviews
    obtain ⟨⟨first, rfl, hfirst⟩, hviews⟩ := hviews
    obtain ⟨hother, hnodup⟩ := List.nodup_cons.mp hnodup
    obtain ⟨output, rest, houtput, hrest, rfl, hafter⟩ := exists_of_result_compileViews h
    rw [hafter]
    rcases List.mem_cons.mp hmem with heq | hmem
    · obtain rfl := List.append_cancel_left heq
      cases output with
      | none => exact absurd List.mem_cons_self hok
      | some output =>
        obtain ⟨content, php, hcontent, hrendered, hphp⟩ := exists_output_compileView houtput
        refine ⟨content, php, hcontent, hrendered, ?_⟩
        rw [content?_output_compileViews hproject hviews hfirst hother, hphp]
    · have hok : project.views ++ names ∉ rest.errors := by
        cases output with
        | none => exact fun herror => hok (List.mem_cons_of_mem _ herror)
        | some _ => exact hok
      rw [← hproject.content?_compileView (project.views ++ first) names ws]
      exact exists_output_compileViews hproject hviews hnodup hrest names hmem hok

/-! ## Builds -/

/-- What the summary of a build tells, where the views are these: each is counted once, as compiled
or as one of the errors, which are the views that failed at their turns in the order of the views;
and the output of every other view holds the compiled form of its content. -/
structure IsSummary (project : Project) (fresh : Bool) (ws : Workspace) (views : List Place)
    (summary : Summary) : Prop where
  count : summary.compiled + summary.errors.length = views.length
  errors : summary.errors = ((project.turns views ((project.opening fresh views).after ws)).filter
    project.fails).map (·.1)
  output : ∀ names, project.views ++ names ∈ views → project.views ++ names ∉ summary.errors →
    ∃ content php, ws.files.content? (project.views ++ names) = some content ∧
      project.rendered? content = some php ∧
      ((project.build fresh).after ws).files.content? (project.output names) = some php

/-- A build that gets to the views compiles them. -/
theorem run_build {ws : Workspace} {views : List Place} {fresh : Bool}
    (hviews : project.discover ws.files = .ok views)
    (hopening : (project.opening fresh views).result ws = .ok ()) :
    (project.build fresh).run.run ws =
      (project.compileViews views).run.run ((project.opening fresh views).after ws) := by
  rw [build_eq, run_bind, result_listViews.mpr hviews, after_listViews]
  dsimp only
  rw [run_bind, hopening]

/-- A build ends well if the compiler takes every view that is a text. -/
theorem exists_result_build_iff (hproject : project.IsApart) {ws : Workspace} {views : List Place}
    (hcache : project.CanPrepare ws.files) (hviews : project.discover ws.files = .ok views)
    (hbelow : ∀ view ∈ views, ∃ names, view = project.views ++ names) (fresh : Bool) :
    (∃ summary, (project.build fresh).result ws = .ok summary) ↔
      ∀ view ∈ views, IsCompilable ws.files view := by
  rw [result, run_build hviews (result_opening hproject hcache fresh views)]
  refine (exists_result_compileViews_iff hproject hbelow).trans
    (forall₂_congr fun view hview => ?_)
  obtain ⟨names, rfl⟩ := hbelow view hview
  exact isCompilable_congr (hproject.content?_opening names ws)

/-- **No view spoils a build but one that the compiler does not take**: if the cache can be made, a
build has a summary just where the compiler takes every view that is a text, and the summary tells
what became of each view. -/
theorem isSummary_build (hproject : project.IsRegular) {ws : Workspace}
    {entries : List (String × FileTree)}
    (hfolder : ws.files.find? project.views = some (.folder entries))
    (hcache : project.CanPrepare ws.files) (fresh : Bool) :
    ∃ views, project.discover ws.files = .ok views ∧ project.Lists ws.files views ∧
      ((∃ summary, (project.build fresh).result ws = .ok summary) ↔
        ∀ view ∈ views, IsCompilable ws.files view) ∧
      ∀ summary, (project.build fresh).result ws = .ok summary →
        project.IsSummary fresh ws views summary := by
  obtain ⟨views, hviews, hlists⟩ := exists_lists hproject.isPlain hfolder
  have hbelow (view : Place) (hview : view ∈ views) : ∃ names, view = project.views ++ names ∧
      project.isViewNames names = true := by
    obtain ⟨names, rfl, hnames, -⟩ := (hlists.mem_iff view).mp hview
    exact ⟨names, rfl, hnames⟩
  have hopening := result_opening hproject.toIsApart hcache fresh views
  refine ⟨views, hviews, hlists, exists_result_build_iff hproject.toIsApart hcache hviews
    (fun view hview => (hbelow view hview).imp fun _ h => h.1) fresh, fun summary h => ?_⟩
  rw [result, run_build hviews hopening] at h
  obtain ⟨hcount, herrors⟩ := errors_compileViews h
  refine ⟨hcount, herrors, fun names hmem hok => ?_⟩
  rw [after, run_build hviews hopening, ← hproject.content?_opening names ws]
  exact exists_output_compileViews hproject hbelow hlists.nodup h names hmem hok

/-! ## A view beside another -/

/-- The files of a project without a cache that has two views, the second one `x`. -/
def withX (first : ByteArray) : Workspace where
  files := .folder [("v", .folder [("a.anx.php", .file first), ("b.anx.php", .file "x".toUTF8)])]
  log := []

/-- The cache of the example can be made. -/
theorem canPrepare_withX (first : ByteArray) : beside.CanPrepare (withX first).files where
  cache := by decide +kernel
  ignoreFile := by decide +kernel
  clear above habove := by
    rcases List.prefix_cons_iff.mp habove with rfl | ⟨below, rfl, hbelow⟩
    · rfl
    · obtain rfl := List.prefix_nil.mp hbelow
      rfl

/-- Both views are listed, whatever the first one holds. -/
theorem discover_withX (first : ByteArray) : beside.discover (withX first).files =
    .ok [["v", "a.anx.php"], ["v", "b.anx.php"]] := by
  have hbelow : (FileTree.folder [("a.anx.php", .file first),
      ("b.anx.php", .file "x".toUTF8)]).places.eraseDups.filter (FileTree.folder
        [("a.anx.php", .file first), ("b.anx.php", .file "x".toUTF8)]).hasFile =
      [["a.anx.php"], ["b.anx.php"]] := rfl
  rw [discover_eq_ok rfl (by decide +kernel) hbelow (by decide +kernel)]
  exact congrArg Except.ok (by decide +kernel)

/-- A text without carriage returns is read as it is. -/
theorem readText_of_text {files : FileTree} {view : Place} {text : String}
    (hcontent : files.content? view = some text.toUTF8)
    (hplain : String.ofList (Text.unifyNewlines text.toList) = text) :
    readText files view = .ok text := by
  refine readText_eq_ok_iff.mpr ⟨_, text, hcontent, ?_, hplain.symm⟩
  simp only [String.fromUTF8?, String.toUTF8_eq_toByteArray, dif_pos text.isValidUTF8]
  rfl

/-- A view that is no text fails, and the other one is compiled. -/
theorem isSummary_build_garbled :
    ∃ summary, (beside.build true).result (withX ⟨#[0xFF]⟩) = .ok summary ∧
      summary.errors = [["v", "a.anx.php"]] ∧ summary.compiled = 1 ∧
      ∃ php, beside.rendered? "x".toUTF8 = some php ∧
        ((beside.build true).after (withX ⟨#[0xFF]⟩)).files.content? ["c", "b.php"] =
          some php := by
  obtain ⟨views, hviews, hlists, hiff, hsummary⟩ :=
    isSummary_build isRegular_beside rfl (canPrepare_withX ⟨#[0xFF]⟩) true
  obtain rfl := Except.ok.inj ((discover_withX _).symm.trans hviews)
  have hgarbled : IsCompilable (withX ⟨#[0xFF]⟩).files ["v", "a.anx.php"] := by
    intro template htemplate
    obtain ⟨content, text, hcontent, htext, -⟩ := readText_eq_ok_iff.mp htemplate
    obtain rfl := Option.some.inj hcontent
    have hnone : String.fromUTF8? ⟨#[0xFF]⟩ = none := by decide +kernel
    exact absurd (hnone.symm.trans htext) nofun
  have hx : IsCompilable (withX ⟨#[0xFF]⟩).files ["v", "b.anx.php"] := by
    refine (isCompilable_iff_of_readText (readText_of_text rfl (by decide +kernel)) beside).mpr ?_
    have hok : (beside.compile "x").isOk = true := by decide +kernel
    cases hcompile : beside.compile "x" with
    | ok compiled => exact ⟨compiled, rfl⟩
    | error error =>
      rw [hcompile] at hok
      cases hok
  obtain ⟨summary, hresult⟩ := hiff.mpr (List.forall_mem_cons.mpr ⟨hgarbled,
    List.forall_mem_singleton.mpr hx⟩)
  obtain ⟨hcount, herrors, houtput⟩ := hsummary summary hresult
  have hfailed : ((beside.turns [["v", "a.anx.php"], ["v", "b.anx.php"]]
      ((beside.opening true [["v", "a.anx.php"], ["v", "b.anx.php"]]).after
        (withX ⟨#[0xFF]⟩))).filter beside.fails).map (·.1) = [["v", "a.anx.php"]] := by
    decide +kernel
  rw [hfailed] at herrors
  rw [herrors] at hcount houtput
  obtain ⟨content, php, hcontent, hphp, hafter⟩ := houtput ["b.anx.php"] (by decide) (by decide)
  obtain rfl := Option.some.inj hcontent
  refine ⟨summary, hresult, herrors, ?_, php, hphp, hafter⟩
  simpa using hcount

/-- A closing directive with a dotless i in one view ends the build with an error, and the other
view, which is compiled without it, has no output. -/
theorem exists_not_exists_result_build :
    ∃ (project : Project) (ws : Workspace) (entries : List (String × FileTree))
      (names : List String) (content : ByteArray),
      project.IsRegular ∧ ws.files.find? project.views = some (.folder entries) ∧
      project.CanPrepare ws.files ∧ project.isViewNames names = true ∧
      ws.files.content? (project.views ++ names) = some content ∧
      (project.rendered? content).isSome = true ∧
      ∀ fresh, (¬ ∃ summary, (project.build fresh).result ws = .ok summary) ∧
        ((project.build fresh).after ws).files.content? (project.output names) = none := by
  have hcache := canPrepare_withX "@end\u0131f".toUTF8
  have hviews := discover_withX "@end\u0131f".toUTF8
  refine ⟨beside, withX "@end\u0131f".toUTF8, _, ["b.anx.php"], "x".toUTF8, isRegular_beside, rfl,
    hcache, by decide +kernel, rfl, by decide +kernel, fun fresh => ⟨fun h => ?_, ?_⟩⟩
  · have hall := (exists_result_build_iff isRegular_beside.toIsApart hcache hviews
      (List.forall_mem_cons.mpr ⟨⟨["a.anx.php"], rfl⟩,
        List.forall_mem_singleton.mpr ⟨["b.anx.php"], rfl⟩⟩) fresh).mp h
    obtain ⟨compiled, hcompiled⟩ := (isCompilable_iff_of_readText
      (readText_of_text rfl (by decide +kernel)) beside).mp (hall _ List.mem_cons_self)
    have herror : (beside.compile "@end\u0131f").isOk = false := by decide +kernel
    rw [hcompiled] at herror
    cases herror
  · rw [after, run_build hviews (result_opening isRegular_beside.toIsApart hcache fresh _)]
    cases fresh <;> decide +kernel

end Project

end ViewCompiler
