import ViewCompiler.Project.Watch
import ViewCompiler.Proofs.FileTree.Contents

/-!
# Steps of a build

How the steps of a build end and which workspace they leave. Compiling a view has one of three
outcomes (`ViewOutcome`): a failure, which is logged and changes no content, an error of the
compiler, which changes nothing, or a new output, which changes its own content only. Removing an
output either removes its file or changes nothing (`RemovalOutcome`). Listing the views changes
nothing and gives the files below the folder of the views whose names are listed (`mem_discover`).
A build is these steps one after the other: it lists the views, opens the cache, and compiles them
(`build_eq`).
-/

namespace ViewCompiler

variable {α β : Type}

namespace Build

/-! ## Runs -/

/-- How a computation ends that starts in a workspace. -/
def result (m : Build α) (ws : Workspace) : Except BuildError α := (m.run.run ws).1

/-- The workspace that a computation leaves, also where it ends with an error. -/
def after (m : Build α) (ws : Workspace) : Workspace := (m.run.run ws).2

/-- A run is its result and what it leaves. -/
theorem run_eq (m : Build α) (ws : Workspace) : m.run.run ws = (m.result ws, m.after ws) := rfl

/-- Giving a value has it as the result. -/
@[simp]
theorem result_pure (a : α) (ws : Workspace) : (pure a : Build α).result ws = .ok a := rfl

/-- Giving a value leaves everything as it is. -/
@[simp]
theorem after_pure (a : α) (ws : Workspace) : (pure a : Build α).after ws = ws := rfl

/-- Ending with an error has it as the result. -/
@[simp]
theorem result_throw (error : BuildError) (ws : Workspace) :
    (throw error : Build α).result ws = .error error := rfl

/-- Ending with an error leaves everything as it is. -/
@[simp]
theorem after_throw (error : BuildError) (ws : Workspace) :
    (throw error : Build α).after ws = ws := rfl

/-- One computation after another: the second starts where the first leaves off. -/
theorem run_bind (m : Build α) (f : α → Build β) (ws : Workspace) :
    (m >>= f).run.run ws =
      match m.result ws with
      | .ok a => (f a).run.run (m.after ws)
      | .error error => (.error error, m.after ws) := by
  rw [ExceptT.run_bind, StateT.run_bind, run_eq]
  cases m.result ws <;> rfl

/-- The result of two steps is that of the second one, if the first succeeds. -/
theorem result_bind {m : Build α} {a : α} {ws : Workspace} (h : m.result ws = .ok a)
    (f : α → Build β) : (m >>= f).result ws = (f a).result (m.after ws) := by
  rw [result, run_bind, h]
  rfl

/-- What two steps leave is what the second one leaves, if the first succeeds. -/
theorem after_bind {m : Build α} {a : α} {ws : Workspace} (h : m.result ws = .ok a)
    (f : α → Build β) : (m >>= f).after ws = (f a).after (m.after ws) := by
  rw [after, run_bind, h]
  rfl

/-- Where the first step fails, the second one is not taken. -/
theorem after_bind_error {m : Build α} {error : BuildError} {ws : Workspace}
    (h : m.result ws = .error error) (f : α → Build β) :
    (m >>= f).after ws = m.after ws := by
  rw [after, run_bind, h]

/-- What is made of a result does not matter for the workspace. -/
theorem after_bind_pure (m : Build α) (f : α → β) (ws : Workspace) :
    (m >>= fun a => pure (f a)).after ws = m.after ws := by
  cases h : m.result ws with
  | ok a => rw [after_bind h, after_pure]
  | error error => rw [after_bind_error h]

/-- Computations one after the other succeed only if both do. -/
theorem exists_of_result_bind {m : Build α} {f : α → Build β} {b : β} {ws : Workspace}
    (h : (m >>= f).result ws = .ok b) :
    ∃ a, m.result ws = .ok a ∧ (f a).result (m.after ws) = .ok b := by
  cases hm : m.result ws with
  | ok a => exact ⟨a, rfl, by rwa [result_bind hm] at h⟩
  | error error =>
    rw [result, run_bind, hm] at h
    cases h

/-- Whether a result is used does not matter for the run. -/
theorem run_discard (m : Build α) (ws : Workspace) :
    (discard m : Build Unit).run.run ws = ((m.result ws).map fun _ => (), m.after ws) := by
  rw [show (discard m : Build Unit) = m >>= fun _ => pure () from rfl, run_bind]
  cases m.result ws <;> rfl

/-! ## Invariants -/

/-- What holds of a workspace holds of the one that the computation leaves, however it ends. -/
def Preserves (P : Workspace → Prop) (m : Build α) : Prop := ∀ ws, P ws → P (m.after ws)

/-- Giving a value preserves everything. -/
theorem preserves_pure {P : Workspace → Prop} (a : α) : Preserves P (pure a : Build α) :=
  fun _ h => h

/-- An invariant of two computations is one of the second after the first, which runs only where
the first gives something. -/
theorem Preserves.bind {P : Workspace → Prop} {m : Build α} {f : α → Build β}
    (hm : Preserves P m) (hf : ∀ ws a, m.result ws = .ok a → Preserves P (f a)) :
    Preserves P (m >>= f) := by
  intro ws hws
  cases hresult : m.result ws with
  | ok a =>
    rw [after_bind hresult]
    exact hf ws a hresult _ (hm ws hws)
  | error error =>
    rw [after_bind_error hresult]
    exact hm ws hws

/-! ## Reading the workspace -/

/-- The state can be looked at. -/
theorem result_get (ws : Workspace) : (get : Build Workspace).result ws = .ok ws := rfl

/-- What comes after looking at the state has its result from that state. -/
@[simp]
theorem result_get_bind (f : Workspace → Build β) (ws : Workspace) :
    (get >>= f).result ws = (f ws).result ws := result_bind (result_get ws) f

/-- What comes after looking at the state leaves what it leaves from that state. -/
@[simp]
theorem after_get_bind (f : Workspace → Build β) (ws : Workspace) :
    (get >>= f).after ws = (f ws).after ws := after_bind (result_get ws) f

/-! ## Changing the workspace -/

/-- What comes after a change has its result from the changed state. -/
@[simp]
theorem result_modify_bind (change : Workspace → Workspace) (f : Unit → Build β)
    (ws : Workspace) :
    ((modify change : Build Unit) >>= f).result ws = (f ()).result (change ws) := rfl

/-- What comes after a change leaves what it leaves from the changed state. -/
@[simp]
theorem after_modify_bind (change : Workspace → Workspace) (f : Unit → Build β)
    (ws : Workspace) :
    ((modify change : Build Unit) >>= f).after ws = (f ()).after (change ws) := rfl

/-- What comes after an event has its result from the state with the event. -/
@[simp]
theorem result_report_bind (event : Event) (f : Unit → Build β) (ws : Workspace) :
    (report event >>= f).result ws = (f ()).result { ws with log := ws.log ++ [event] } := rfl

/-- What comes after an event leaves what it leaves from the state with the event. -/
@[simp]
theorem after_report_bind (event : Event) (f : Unit → Build β) (ws : Workspace) :
    (report event >>= f).after ws = (f ()).after { ws with log := ws.log ++ [event] } := rfl

/-! ## Looking at the files -/

/-- Looking whether something is at a place changes nothing. -/
theorem after_has (place : Place) (ws : Workspace) : (Build.has place).after ws = ws := by
  rw [Build.has, after_get_bind]
  split <;> rfl

/-- What is told about a place is whether something is there. -/
theorem find?_of_result_has {place : Place} {found : Bool} {ws : Workspace}
    (h : (Build.has place).result ws = .ok found) : (ws.files.find? place).isSome = found := by
  rw [Build.has, result_get_bind, FileTree.look] at h
  cases hfound : ws.files.find? place with
  | some tree =>
    rw [hfound] at h
    exact Except.ok.inj h
  | none =>
    rw [hfound] at h
    dsimp only at h
    split at h
    · next heq => cases heq
    · cases h
    · exact Except.ok.inj h

/-! ## Changing the files -/

/-- A change of the files that succeeds. -/
theorem run_changing_ok {change : FileTree → Except FileError FileTree} {files : FileTree}
    {ws : Workspace} (h : change ws.files = .ok files) :
    (changing change).run.run ws = (.ok (), { ws with files }) := by
  rw [run_eq, changing, result_get_bind, after_get_bind, h]
  rfl

/-- A change of the files that fails. -/
theorem run_changing_error {change : FileTree → Except FileError FileTree} {error : FileError}
    {ws : Workspace} (h : change ws.files = .error error) :
    (changing change).run.run ws = (.error (.file error), ws) := by
  rw [run_eq, changing, result_get_bind, after_get_bind, h]
  rfl

/-- What comes after work on files has its result from the files that are left. -/
@[simp]
theorem result_trying_bind (work : FileTree → Except FileError Unit × FileTree)
    (f : Except FileError Unit → Build β) (ws : Workspace) :
    (trying work >>= f).result ws =
      (f (work ws.files).1).result { ws with files := (work ws.files).2 } := rfl

/-- What comes after work on files leaves what it leaves from the files that are left. -/
@[simp]
theorem after_trying_bind (work : FileTree → Except FileError Unit × FileTree)
    (f : Except FileError Unit → Build β) (ws : Workspace) :
    (trying work >>= f).after ws =
      (f (work ws.files).1).after { ws with files := (work ws.files).2 } := rfl

/-- Making folders leaves what it has made, also where it fails. -/
theorem after_makeFolders (place : Place) (ws : Workspace) :
    (Build.makeFolders place).after ws = { ws with files := (ws.files.makeFolders place).2 } := by
  rw [Build.makeFolders, after_trying_bind]
  cases (ws.files.makeFolders place).1 <;> rfl

/-- If the step of making folders succeeds, the folders could be made. -/
theorem makeFolders_of_result {place : Place} {ws : Workspace}
    (h : (Build.makeFolders place).result ws = .ok ()) :
    (ws.files.makeFolders place).1 = .ok () := by
  rw [Build.makeFolders, result_trying_bind] at h
  cases hmake : (ws.files.makeFolders place).1 with
  | ok _ => rfl
  | error error =>
    rw [hmake] at h
    cases h

end Build

/-! ## Reading a view -/

/-- The event is that a view failed. -/
def Event.isFailure : Event → Bool
  | .failed .. => true
  | .form _ | .compiled _ | .removed _ | .nothingToCompile => false

/-- How many failures were logged. -/
def Workspace.failures (ws : Workspace) : Nat := ws.log.countP Event.isFailure

/-- A file is read exactly if it is there, and its content is given. -/
theorem read_eq_ok_iff {files : FileTree} {place : Place} {content : ByteArray} :
    files.read place = .ok content ↔ files.content? place = some content := by
  rw [FileTree.read, FileTree.look, FileTree.content?]
  cases files.find? place with
  | none => exact iff_of_false (fun h => by cases h) fun h => by cases h
  | some found =>
    cases found with
    | file old =>
      exact ⟨fun h => congrArg some (Except.ok.inj h),
        fun h => congrArg Except.ok (Option.some.inj h)⟩
    | folder entries => exact iff_of_false (fun h => by cases h) fun h => by cases h

/-- A view is read as the text of its content. -/
theorem readText_eq_ok_iff {files : FileTree} {view : Place} {template : String} :
    readText files view = .ok template ↔
      ∃ content text, files.content? view = some content ∧ String.fromUTF8? content = some text ∧
        template = String.ofList (Text.unifyNewlines text.toList) := by
  unfold readText
  constructor
  · intro h
    split at h
    · cases h
    · next content hread =>
      split at h
      · next text htext =>
        exact ⟨content, text, read_eq_ok_iff.mp hread, htext, (Except.ok.inj h).symm⟩
      · cases h
  · rintro ⟨content, text, hcontent, htext, rfl⟩
    simp only [read_eq_ok_iff.mpr hcontent, htext]
    rfl

namespace Project

variable {project : Project}

/-! ## Places of paths -/

/-- Locating a path changes nothing. -/
theorem after_locate (path : Path) (ws : Workspace) :
    (project.locate path).after ws = ws := by
  unfold locate
  split <;> rfl

/-- A path is located where it leads to, if it leads anywhere. -/
theorem result_locate {path : Path} {place : Place} {ws : Workspace} :
    (project.locate path).result ws = .ok place ↔
      path.isUsable = true ∧ path.place project.base = place := by
  unfold locate
  split <;> simp_all

/-- The compiled form of a view with this content, if the content is a text that the compiler
takes. -/
def rendered? (project : Project) (content : ByteArray) : Option ByteArray :=
  (String.fromUTF8? content).bind fun text =>
    match project.compile (String.ofList (Text.unifyNewlines text.toList)) with
    | .ok compiled => some compiled.php.toUTF8
    | .error _ => none

/-! ## Compiling a view -/

/-- How compiling a view ends in a workspace, and the workspace that it leaves. -/
inductive ViewOutcome (project : Project) (view : Place) (names : List String) (ws : Workspace) :
    Except BuildError (Option Place) → Workspace → Prop
  /-- The failure is logged. Folders may have been made, but no content changed. -/
  | failed {after : Workspace}
      (hcontent : ∀ place, after.files.content? place = ws.files.content? place)
      (hfailures : after.failures = ws.failures + 1) :
      ViewOutcome project view names ws (.ok none) after
  /-- The compiler does not take the template, so nothing changed. -/
  | refused {error : BuildError} {content : ByteArray}
      (hview : ws.files.content? view = some content)
      (hrendered : project.rendered? content = none) :
      ViewOutcome project view names ws (.error error) ws
  /-- The output holds the compiled form, and no other content changed. -/
  | written {after : Workspace} {content php : ByteArray}
      (hview : ws.files.content? view = some content)
      (hrendered : project.rendered? content = some php)
      (husable : isPlaceUsable (project.output names) = true)
      (hcontent : ∀ place, after.files.content? place =
        if place = project.output names then some php else ws.files.content? place)
      (hfailures : after.failures = ws.failures) :
      ViewOutcome project view names ws (.ok (some (project.output names))) after

/-- Compiling a view changes no content but that of its output. -/
theorem ViewOutcome.content?_of_ne {view : Place} {names : List String} {ws after : Workspace}
    {result : Except BuildError (Option Place)}
    (h : ViewOutcome project view names ws result after) {place : Place}
    (hplace : place ≠ project.output names) :
    after.files.content? place = ws.files.content? place := by
  cases h with
  | failed hcontent => exact hcontent place
  | refused => rfl
  | written _ _ _ hcontent => rw [hcontent, if_neg hplace]

/-- Compiling a view takes no failure back. -/
theorem ViewOutcome.failures_le {view : Place} {names : List String} {ws after : Workspace}
    {result : Except BuildError (Option Place)}
    (h : ViewOutcome project view names ws result after) : ws.failures ≤ after.failures := by
  cases h with
  | failed _ hfailures => omega
  | refused => exact Nat.le_refl _
  | written _ _ _ _ hfailures => omega

/-- Compiling a view has one of the outcomes. -/
theorem viewOutcome_compileView {view : Place} {names : List String}
    (hnames : project.namesBelow? view = some names) (ws : Workspace) :
    ViewOutcome project view names ws ((project.compileView view).result ws)
      ((project.compileView view).after ws) := by
  unfold compileView
  simp only [hnames, Build.result_get_bind, Build.after_get_bind]
  cases hread : readText ws.files view with
  | error cause =>
    simp only [Build.result_report_bind, Build.after_report_bind, Build.result_pure,
      Build.after_pure]
    exact .failed (fun _ => rfl) (by simp [Workspace.failures, Event.isFailure])
  | ok template =>
    obtain ⟨content, text, hview, htext, rfl⟩ := readText_eq_ok_iff.mp hread
    cases hcompile : project.compile (String.ofList (Text.unifyNewlines text.toList)) with
    | error error =>
      have hrendered : project.rendered? content = none := by simp [rendered?, htext, hcompile]
      simp only [hcompile, Build.result_throw, Build.after_throw]
      exact .refused hview hrendered
    | ok compiled =>
      have hrendered : project.rendered? content = some compiled.php.toUTF8 := by
        simp [rendered?, htext, hcompile]
      simp only [hcompile, Build.result_report_bind, Build.after_report_bind,
        Build.result_trying_bind, Build.after_trying_bind]
      cases hstore : (ws.files.store (project.output names) compiled.php.toUTF8).1 with
      | error error =>
        simp only [Build.result_report_bind, Build.after_report_bind, Build.result_pure,
          Build.after_pure]
        exact .failed (FileTree.makesFolders_store hstore).content?_eq
          (by simp [Workspace.failures, Event.isFailure])
      | ok _ =>
        simp only [Build.result_report_bind, Build.after_report_bind, Build.result_pure,
          Build.after_pure]
        exact .written hview hrendered (FileTree.isPlaceUsable_of_store hstore)
          (FileTree.content?_store hstore) (by simp [Workspace.failures, Event.isFailure])

/-! ## Removing an output -/

/-- How removing the output of a view ends in a workspace, and the workspace that it leaves. -/
inductive RemovalOutcome (project : Project) (names : List String) (ws : Workspace) :
    Except BuildError Bool → Workspace → Prop
  /-- The output is gone, and no other content changed. -/
  | removed {after : Workspace}
      (hcontent : ∀ place, after.files.content? place =
        if place = project.output names then none else ws.files.content? place)
      (hfailures : after.failures = ws.failures) :
      RemovalOutcome project names ws (.ok true) after
  /-- Nothing changed, as no file that could be removed was there. -/
  | kept {result : Except BuildError Bool}
      (hcontent : isPlaceUsable (project.output names) = true →
        ws.files.content? (project.output names) = none) :
      RemovalOutcome project names ws result ws

/-- Removing the output of a view changes no other content. -/
theorem RemovalOutcome.content?_of_ne {names : List String} {ws after : Workspace}
    {result : Except BuildError Bool} (h : RemovalOutcome project names ws result after)
    {place : Place} (hplace : place ≠ project.output names) :
    after.files.content? place = ws.files.content? place := by
  cases h with
  | removed hcontent => rw [hcontent, if_neg hplace]
  | kept => rfl

/-- Removing the output of a view takes no failure back. -/
theorem RemovalOutcome.failures_le {names : List String} {ws after : Workspace}
    {result : Except BuildError Bool} (h : RemovalOutcome project names ws result after) :
    ws.failures ≤ after.failures := by
  cases h with
  | removed _ hfailures => omega
  | kept => exact Nat.le_refl _

/-- Removing the output of a view has one of the outcomes. -/
theorem removalOutcome_removeView {view : Place} {names : List String}
    (hnames : project.namesBelow? view = some names) (ws : Workspace) :
    RemovalOutcome project names ws ((project.removeView view).result ws)
      ((project.removeView view).after ws) := by
  have hkept {error : FileError} (h : ws.files.removeFile (project.output names) = .error error)
      (husable : isPlaceUsable (project.output names) = true) :
      ws.files.content? (project.output names) = none := by
    cases hcontent : ws.files.content? (project.output names) with
    | none => rfl
    | some content =>
      obtain ⟨after, hafter⟩ := FileTree.exists_removeFile husable hcontent
      rw [h] at hafter
      cases hafter
  unfold removeView
  simp only [hnames, Build.result_get_bind, Build.after_get_bind]
  cases hremove : ws.files.removeFile (project.output names) with
  | error error => cases error <;> exact .kept (hkept hremove)
  | ok files =>
    simp only [Build.result_modify_bind, Build.after_modify_bind, Build.result_report_bind,
      Build.after_report_bind, Build.result_pure, Build.after_pure]
    exact .removed (FileTree.content?_removeFile hremove)
      (by simp [Workspace.failures, Event.isFailure])

/-! ## Listing the views -/

/-- The views of a project are the files below its folder of views whose names are listed. -/
theorem mem_discover {files : FileTree} {views : List Place}
    (h : project.discover files = .ok views) (view : Place) :
    view ∈ views ↔ ∃ names, view = project.views ++ names ∧
      isListed project.extension (names.getLastD "") = true ∧ files.hasFile view = true := by
  unfold discover at h
  split at h
  · next entries hlook =>
    split at h
    · cases h
    · have hfound : files.find? project.views = some (.folder entries) := by
        unfold FileTree.look at hlook
        split at hlook
        · next hfind => rw [hfind, Except.ok.inj hlook]
        · cases hlook
      have hfile (names : Place) :
          files.hasFile (project.views ++ names) = (FileTree.folder entries).hasFile names := by
        rw [FileTree.hasFile, FileTree.hasFile, FileTree.content?, FileTree.find?_append, hfound]
        rfl
      obtain rfl := Except.ok.inj h
      simp only [List.mem_map, List.mem_filter, FileTree.mem_files]
      constructor
      · rintro ⟨names, ⟨hnames, hlisted⟩, rfl⟩
        exact ⟨names, rfl, hlisted, by rwa [hfile]⟩
      · rintro ⟨names, rfl, hlisted, hnames⟩
        exact ⟨names, ⟨by rwa [hfile] at hnames, hlisted⟩, rfl⟩
  · cases h
  · cases h

/-- The views can be listed where their folder is there and their pattern is not refused. -/
theorem exists_discover {files : FileTree} {entries : List (String × FileTree)}
    (hfolder : files.find? project.views = some (.folder entries))
    (hpattern : isPatternRefused project.extension = false) :
    ∃ views, project.discover files = .ok views := by
  simp [discover, FileTree.look, hfolder, hpattern, pure, Except.pure]

/-- The views of a concrete tree: the files below the folder of the views are put in order, and
those whose names are listed are kept. -/
theorem discover_eq_ok {files : FileTree} {entries : List (String × FileTree)} {below : List Place}
    (hfolder : files.find? project.views = some (.folder entries))
    (hpattern : isPatternRefused project.extension = false)
    (hbelow : (FileTree.folder entries).places.eraseDups.filter (FileTree.folder entries).hasFile =
      below)
    (hordered : below.Pairwise fun a b => placeLe a b = true) :
    project.discover files =
      .ok ((below.filter fun names => isListed project.extension (names.getLastD "")).map
        (project.views ++ ·)) := by
  have hfiles : (FileTree.folder entries).files = below := by
    rw [FileTree.files, hbelow]
    exact List.mergeSort_of_pairwise hordered
  simp [discover, FileTree.look, hfolder, hpattern, hfiles, pure, Except.pure]

/-- Listing the views changes nothing. -/
theorem after_listViews (ws : Workspace) : project.listViews.after ws = ws := by
  unfold listViews
  rw [Build.after_get_bind]
  split <;> rfl

/-- Listing views gives them exactly if they are discovered. -/
theorem result_listViews {ws : Workspace} {views : List Place} :
    project.listViews.result ws = .ok views ↔ project.discover ws.files = .ok views := by
  unfold listViews
  rw [Build.result_get_bind]
  cases project.discover ws.files with
  | ok found => simp
  | error error => cases error <;> simp

/-! ## The parts of a build -/

/-- What a build does before it compiles the views. -/
def opening (project : Project) (fresh : Bool) (views : List Place) : Build Unit := do
  if fresh then project.clean
  project.prepareCache
  if views.isEmpty then Build.report .nothingToCompile

/-- A build lists the views, opens the cache and compiles the views. -/
theorem build_eq (project : Project) (fresh : Bool) :
    project.build fresh =
      project.listViews >>= fun views =>
        project.opening fresh views >>= fun _ => project.compileViews views := by
  unfold build opening
  congr 1
  funext views
  cases fresh <;> cases views.isEmpty <;> simp

/-- The summary with another view in front, which has an output or failed. -/
def Summary.adding (summary : Summary) (view : Place) : Option Place → Summary
  | some _ => { summary with compiled := summary.compiled + 1 }
  | none => { summary with errors := view :: summary.errors }

/-- The first view is compiled, then the others, and it is added to what they tell. -/
theorem compileViews_cons (view : Place) (views : List Place) :
    project.compileViews (view :: views) =
      project.compileView view >>= fun output =>
        project.compileViews views >>= fun summary => pure (summary.adding view output) := by
  rw [compileViews]
  congr 1
  funext output
  cases output <;> rfl

/-- Where views are compiled to the end, the first is, and the others are from there on. -/
theorem exists_of_result_compileViews {view : Place} {views : List Place} {ws : Workspace}
    {summary : Summary} (h : (project.compileViews (view :: views)).result ws = .ok summary) :
    ∃ output rest, (project.compileView view).result ws = .ok output ∧
      (project.compileViews views).result ((project.compileView view).after ws) = .ok rest ∧
      summary = rest.adding view output ∧
      (project.compileViews (view :: views)).after ws =
        (project.compileViews views).after ((project.compileView view).after ws) := by
  rw [compileViews_cons] at h ⊢
  obtain ⟨output, houtput, h⟩ := Build.exists_of_result_bind h
  obtain ⟨rest, hrest, h⟩ := Build.exists_of_result_bind h
  exact ⟨output, rest, houtput, hrest, (Except.ok.inj h).symm,
    by rw [Build.after_bind houtput, Build.after_bind_pure]⟩

/-! ## Views and their outputs -/

/-- The place of a view's compiled form, if the view is below the folder of the views. -/
def outputOf? (project : Project) (view : Place) : Option Place :=
  (project.namesBelow? view).map project.output

/-- The names below the folder of the views lead to the place. -/
theorem namesBelow?_append (project : Project) (names : List String) :
    project.namesBelow? (project.views ++ names) = some names :=
  remainder?_eq_some_iff.mpr rfl

end Project
end ViewCompiler
