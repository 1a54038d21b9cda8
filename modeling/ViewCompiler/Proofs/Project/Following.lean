import Mathlib.Logic.Relation
import ViewCompiler.Proofs.Project.Mirror

/-!
# Following changes and building again

A cache that mirrors the views still mirrors them after their changes were followed: each change
puts the new content of one view in place of the old one (`mirrors_follow`), so a batch that
reports every change once leaves a cache that mirrors the new contents (`mirrors_followEach`). So
the cache holds what a clean build leaves, after every batch and after any sequence of them
(`isBuilt_followAll`). The first state has to be one that a clean build has no failures in: a view
that failed there is not tried again when the cause of its failure is gone
(`exists_not_isBuilt_followAll`).
-/

namespace ViewCompiler

/-- The kind tells how the content of a file changed. -/
def ChangeKind.Fits (before after : Option ByteArray) : ChangeKind → Prop
  | .added => before = none ∧ after ≠ none
  | .modified => before ≠ none ∧ after ≠ none
  | .deleted => before ≠ none ∧ after = none

instance ChangeKind.decidableFits (before after : Option ByteArray) :
    ∀ kind : ChangeKind, Decidable (kind.Fits before after)
  | .added => inferInstanceAs (Decidable (before = none ∧ after ≠ none))
  | .modified => inferInstanceAs (Decidable (before ≠ none ∧ after ≠ none))
  | .deleted => inferInstanceAs (Decidable (before ≠ none ∧ after = none))

namespace Project

open Build

variable {project : Project}

/-! ## Batches of changes -/

/-- The place of the changed file. -/
def placeOf (project : Project) (change : Change) : Place := change.path.place project.base

/-- The changes tell how the views of one tree became those of another: every change of a view is
reported, once and as what it is. What is reported about other files does not matter. -/
structure Reports (project : Project) (before after : FileTree) (changes : List Change) :
    Prop where
  usable : ∀ change ∈ changes, change.path.isUsable = true
  fits : ∀ change ∈ changes, project.owns (project.placeOf change) = true →
    change.kind.Fits (before.content? (project.placeOf change))
      (after.content? (project.placeOf change))
  complete : ∀ place, project.owns place = true → before.content? place ≠ after.content? place →
    place ∈ changes.map project.placeOf
  once : ((changes.map project.placeOf).filter project.owns).Nodup

/-- The views of a project are owned by it. -/
theorem owns_append (names : List String) :
    project.owns (project.views ++ names) = project.isViewNames names := by
  rw [owns, namesBelow?_append]
  cases names with
  | nil => rfl
  | cons name names =>
    simp [isViewNames, List.getLastD_eq_getLast?, List.getLast?_append, List.getLast?_cons]

/-- What a project owns is below the folder of its views. -/
theorem exists_of_owns {place : Place} (h : project.owns place = true) :
    ∃ names, place = project.views ++ names ∧ project.isViewNames names = true := by
  cases hnames : project.namesBelow? place with
  | none => simp [owns, hnames] at h
  | some names =>
    obtain rfl := remainder?_eq_some_iff.mp hnames
    exact ⟨names, rfl, (owns_append names).symm.trans h⟩

/-! ## Steps -/

/-- Following a deletion removes the output. -/
theorem run_follow_deleted (view : Place) (ws : Workspace) :
    (project.follow .deleted view).run.run ws =
      (((project.removeView view).result ws).map fun _ => (),
        (project.removeView view).after ws) :=
  run_discard _ ws

/-- Following any other change compiles the view. -/
theorem run_follow_of_ne {kind : ChangeKind} (hkind : kind ≠ .deleted) (view : Place)
    (ws : Workspace) :
    (project.follow kind view).run.run ws =
      (((project.compileView view).result ws).map fun _ => (),
        (project.compileView view).after ws) := by
  cases kind with
  | deleted => exact absurd rfl hkind
  | added | modified => exact run_discard _ ws

/-- Following a change takes no failure back. -/
theorem failures_le_follow (kind : ChangeKind) (names : List String) (ws : Workspace) :
    ws.failures ≤ ((project.follow kind (project.views ++ names)).after ws).failures := by
  by_cases hkind : kind = .deleted
  · subst hkind
    rw [after, run_follow_deleted]
    exact (removalOutcome_removeView (project.namesBelow?_append names) ws).failures_le
  · rw [after, run_follow_of_ne hkind]
    exact (viewOutcome_compileView (project.namesBelow?_append names) ws).failures_le

/-- A view that the compiler takes is compiled, unless a failure is logged. -/
theorem exists_result_compileView {ws : Workspace} {names : List String} {content : ByteArray}
    (hcontent : ws.files.content? (project.views ++ names) = some content)
    (hrendered : project.rendered? content ≠ none)
    (hfailures : ((project.compileView (project.views ++ names)).after ws).failures =
      ws.failures) :
    ∃ output, (project.compileView (project.views ++ names)).result ws = .ok (some output) := by
  have houtcome := viewOutcome_compileView (project.namesBelow?_append names) ws
  generalize (project.compileView (project.views ++ names)).result ws = result at houtcome ⊢
  generalize (project.compileView (project.views ++ names)).after ws = after at houtcome hfailures
  cases houtcome with
  | failed _ hmore => omega
  | refused hview hnone =>
    obtain rfl := Option.some.inj (hcontent.symm.trans hview)
    exact absurd hnone hrendered
  | written => exact ⟨_, rfl⟩

/-- The output of a view that is mirrored is removed, and the view is then mirrored no more. -/
theorem mirrors_removeView (hproject : project.IsRegular)
    {source : List String → Option ByteArray} {ws : Workspace} {names : List String}
    (h : project.Mirrors source ws.files) (hnames : project.isViewNames names = true)
    (hsource : source names ≠ none) :
    (∃ found, (project.removeView (project.views ++ names)).result ws = .ok found) ∧
      project.Mirrors (fun view => if view = names then none else source view)
        ((project.removeView (project.views ++ names)).after ws).files := by
  obtain ⟨content, hcontent⟩ := Option.ne_none_iff_exists'.mp hsource
  obtain ⟨hrendered, husable⟩ := h.rendered names content hnames hcontent
  have houtput : ws.files.content? (project.output names) ≠ none := by
    rw [h.output names hnames, hcontent]
    exact hrendered
  have houtcome := removalOutcome_removeView (project.namesBelow?_append names) ws
  generalize (project.removeView (project.views ++ names)).result ws = result at houtcome ⊢
  generalize (project.removeView (project.views ++ names)).after ws = after at houtcome ⊢
  cases houtcome with
  | removed hafter => exact ⟨⟨true, rfl⟩, h.update hproject hnames nofun hafter⟩
  | kept hnone => exact absurd (hnone husable) houtput

/-- Following a reported change without a failure ends well, and the cache then mirrors the view
with its new content. -/
theorem mirrors_follow (hproject : project.IsRegular) {source : List String → Option ByteArray}
    {ws : Workspace} {names : List String} {kind : ChangeKind}
    (h : project.Mirrors source ws.files) (hnames : project.isViewNames names = true)
    (hfits : kind.Fits (source names) (ws.files.content? (project.views ++ names)))
    (hrendered : ∀ content, ws.files.content? (project.views ++ names) = some content →
      project.rendered? content ≠ none)
    (hfailures : ((project.follow kind (project.views ++ names)).after ws).failures =
      ws.failures) :
    (project.follow kind (project.views ++ names)).result ws = .ok () ∧
      project.Mirrors
        (fun view => if view = names then ws.files.content? (project.views ++ names)
          else source view)
        ((project.follow kind (project.views ++ names)).after ws).files := by
  by_cases hkind : kind = .deleted
  · subst hkind
    obtain ⟨hsource, hgone⟩ := hfits
    obtain ⟨⟨found, hfound⟩, hmirrors⟩ := mirrors_removeView hproject h hnames hsource
    rw [result, after, run_follow_deleted, hfound, hgone]
    exact ⟨rfl, hmirrors⟩
  · have hthere : ws.files.content? (project.views ++ names) ≠ none := by
      cases kind with
      | deleted => exact absurd rfl hkind
      | added | modified => exact hfits.2
    obtain ⟨content, hcontent⟩ := Option.ne_none_iff_exists'.mp hthere
    rw [after, run_follow_of_ne hkind] at hfailures
    obtain ⟨output, houtput⟩ :=
      exists_result_compileView hcontent (hrendered content hcontent) hfailures
    rw [result, after, run_follow_of_ne hkind, houtput]
    exact ⟨rfl, mirrors_compileView hproject h hnames houtput⟩

/-! ## Runs -/

/-- Following changes takes no failure back. -/
theorem failures_le_followEach (count : Nat) :
    ∀ changes : List Change,
      Preserves (fun ws => count ≤ ws.failures) (project.followEach changes)
  | [] => preserves_pure 0
  | change :: changes => by
    have hlocate : Preserves (fun ws => count ≤ ws.failures) (project.locate change.path) :=
      fun ws h => by rwa [after_locate]
    refine hlocate.bind fun _ view hview => ?_
    split
    · next howns =>
      obtain ⟨names, rfl, -⟩ := exists_of_owns howns
      refine Preserves.bind (fun ws h => Nat.le_trans h (failures_le_follow _ names ws))
        fun _ _ _ => ?_
      exact (failures_le_followEach count changes).bind fun _ _ _ => preserves_pure _
    · exact failures_le_followEach count changes

/-- The first of two computations logs no more failures than both. -/
theorem failures_le_bind {α β : Type} {m : Build α} {f : α → Build β}
    (hf : ∀ a count, Preserves (fun ws => count ≤ ws.failures) (f a)) (ws : Workspace) :
    (m.after ws).failures ≤ ((m >>= f).after ws).failures := by
  cases hresult : m.result ws with
  | ok a =>
    rw [after_bind hresult]
    exact hf a _ _ (Nat.le_refl _)
  | error error =>
    exact Nat.le_of_eq (by rw [after_bind_error hresult])

/-- Following a batch that reports the changes of the views, without a failure, ends well and
leaves a cache that mirrors their new contents. -/
theorem mirrors_followEach (hproject : project.IsRegular)
    {target : List String → Option ByteArray}
    (hrendered : ∀ names content, project.isViewNames names = true → target names = some content →
      project.rendered? content ≠ none) :
    ∀ {changes : List Change} {source : List String → Option ByteArray} {ws : Workspace},
      (∀ change ∈ changes, change.path.isUsable = true) →
      (∀ change ∈ changes, ∀ names, project.placeOf change = project.views ++ names →
        project.isViewNames names = true → change.kind.Fits (source names) (target names)) →
      ((changes.map project.placeOf).filter project.owns).Nodup →
      (∀ names, ws.files.content? (project.views ++ names) = target names) →
      project.Mirrors source ws.files →
      ((project.followEach changes).after ws).failures = ws.failures →
        (∃ count, (project.followEach changes).result ws = .ok count) ∧
          project.Mirrors
            (fun names => if project.views ++ names ∈ changes.map project.placeOf
              then target names else source names)
            ((project.followEach changes).after ws).files
  | [], _, _, _, _, _, _, h, _ => ⟨⟨0, rfl⟩, h.of_source_eq fun _ _ => by simp⟩
  | change :: changes, source, ws, husable, hfits, honce, htarget, h, hfailures => by
    rw [List.forall_mem_cons] at husable hfits
    have hlocate : (project.locate change.path).result ws = .ok (project.placeOf change) :=
      result_locate.mpr ⟨husable.1, rfl⟩
    rw [followEach, result_bind hlocate, after_bind hlocate, after_locate]
    rw [followEach, after_bind hlocate, after_locate] at hfailures
    by_cases howns : project.owns (project.placeOf change) = true
    · obtain ⟨names, hplace, hnames⟩ := exists_of_owns howns
      rw [List.map_cons, List.filter_cons_of_pos howns, List.nodup_cons, List.mem_filter] at honce
      rw [if_pos howns] at hfailures ⊢
      rw [hplace] at hfailures honce howns ⊢
      -- The batch logs no failure, so its first change does not.
      have hfirst : ((project.follow change.kind (project.views ++ names)).after ws).failures =
          ws.failures := by
        refine Nat.le_antisymm (hfailures ▸ failures_le_bind (fun _ count => ?_) ws)
          (failures_le_follow _ names ws)
        exact (failures_le_followEach count changes).bind fun _ _ _ => preserves_pure _
      obtain ⟨hresult, hmirrors⟩ := mirrors_follow hproject h hnames
        (htarget names ▸ hfits.1 names hplace hnames)
        (fun content hcontent =>
          hrendered names content hnames ((htarget names).symm.trans hcontent))
        hfirst
      rw [after_bind hresult, after_bind_pure, ← hfirst] at hfailures
      rw [result_bind hresult, after_bind hresult, after_bind_pure]
      have hkept (view : List String) :
        ((project.follow change.kind (project.views ++ names)).after
          ws).files.content? (project.views ++ view) = target view :=
        keeps_follow (hproject.outputOf?_ne _ view) ws (htarget view)
      have hrest (other : Change) (hother : other ∈ changes) (view : List String)
          (hview : project.placeOf other = project.views ++ view)
          (hviewNames : project.isViewNames view = true) :
          other.kind.Fits (if view = names then ws.files.content? (project.views ++ names)
            else source view) (target view) := by
        have hne : view ≠ names := by
          rintro rfl
          exact honce.1 ⟨hview ▸ List.mem_map_of_mem hother, howns⟩
        rw [if_neg hne]
        exact hfits.2 other hother view hview hviewNames
      obtain ⟨⟨count, hcount⟩, hend⟩ :=
        mirrors_followEach hproject hrendered husable.2 hrest honce.2 hkept hmirrors hfailures
      refine ⟨⟨count + 1, by rw [result_bind hcount, result_pure]⟩,
        hend.of_source_eq fun view _ => ?_⟩
      by_cases heq : view = names
      · subst heq
        simp [htarget, hplace]
      · simp [heq, hplace]
    · rw [List.map_cons, List.filter_cons_of_neg howns] at honce
      rw [if_neg howns] at hfailures ⊢
      obtain ⟨hcount, hend⟩ :=
        mirrors_followEach hproject hrendered husable.2 hfits.2 honce htarget h hfailures
      refine ⟨hcount, hend.of_source_eq fun view hview => ?_⟩
      have hne : project.views ++ view ≠ project.placeOf change := by
        intro heq
        rw [← heq, owns_append, hview] at howns
        exact howns rfl
      simp [hne]

/-! ## Batches after a clean build -/

/-- A clean build ends well and no view fails in it. -/
def BuildsCleanly (project : Project) (ws : Workspace) : Prop :=
  ∃ summary, (project.build true).result ws = .ok summary ∧ summary.ok = true

/-- The files in the cache are those that a clean build would leave, and no view fails in it. -/
structure IsBuilt (project : Project) (ws : Workspace) : Prop where
  cleanly : project.BuildsCleanly ws
  cache : ∀ names, ws.files.content? (project.cache ++ names) =
    ((project.build true).after ws).files.content? (project.cache ++ names)

/-- A change of the files of the views and a batch that reports it, which is followed without a
failure. No view fails in a clean build afterwards. -/
structure Round (project : Project) (ws edited : Workspace) (changes : List Change) : Prop where
  edit : ∀ place, ¬ project.views <+: place →
    edited.files.content? place = ws.files.content? place
  reports : project.Reports ws.files edited.files changes
  failures : ((project.followAll changes).after edited).failures = edited.failures
  cleanly : project.BuildsCleanly ((project.followAll changes).after edited)

/-- One workspace comes from another by a change of the views that was followed. -/
def Follows (project : Project) (ws after : Workspace) : Prop :=
  ∃ edited changes, project.Round ws edited changes ∧
    after = (project.followAll changes).after edited

/-- Following a batch after a clean build ends well and leaves what a clean build would leave. -/
theorem Round.isBuilt (hproject : project.IsRegular) {ws edited : Workspace}
    {changes : List Change} (hbuilt : project.IsBuilt ws)
    (hround : project.Round ws edited changes) :
    (∃ count, (project.followAll changes).result edited = .ok count) ∧
      project.IsBuilt ((project.followAll changes).after edited) := by
  obtain ⟨before, hbefore, hbeforeOk⟩ := hbuilt.cleanly
  obtain ⟨again, hagain, hagainOk⟩ := hround.cleanly
  have hstart : project.Mirrors (fun names => ws.files.content? (project.views ++ names))
      edited.files :=
    ((mirrors_build hproject hbefore hbeforeOk).of_content?_eq hbuilt.cache).of_content?_eq
      fun names => hround.edit _ (hproject.not_views_above names)
  -- Following the batch leaves the views as they are, so a clean build mirrors them as well.
  have hkept (names : List String) :
      ((project.followAll changes).after edited).files.content? (project.views ++ names) =
        edited.files.content? (project.views ++ names) :=
    keeps_followEach (fun _ _ _ => hproject.outputOf?_ne _ names) edited rfl
  have hclean := (mirrors_build hproject hagain hagainOk).of_source_eq
    fun names _ => (hkept names).symm
  have hperm := List.mergeSort_perm changes changeLe
  have hmem (place : Place) : place ∈ (changes.mergeSort changeLe).map project.placeOf ↔
      place ∈ changes.map project.placeOf := (hperm.map _).mem_iff
  obtain ⟨hcount, hend⟩ := mirrors_followEach hproject
    (fun names content hnames hcontent => (hclean.rendered names content hnames hcontent).1)
    (fun change hchange => hround.reports.usable change (hperm.mem_iff.mp hchange))
    (fun change hchange names hplace hnames =>
      hplace ▸ hround.reports.fits change (hperm.mem_iff.mp hchange)
        (by rw [hplace, owns_append, hnames]))
    (((hperm.map _).filter _).nodup_iff.mpr hround.reports.once)
    (fun _ => rfl) hstart hround.failures
  refine ⟨hcount, hround.cleanly,
    Mirrors.content?_eq (hend.of_source_eq fun names hnames => ?_) hclean⟩
  split
  · rfl
  · next hother =>
    rw [hmem] at hother
    refine Decidable.byContradiction fun hne => hother ?_
    exact hround.reports.complete _ (by rw [owns_append, hnames]) (Ne.symm hne)

/-- **Following batches agrees with building again**: after a clean build without failures and any
sequence of batches, another batch ends well and leaves what a clean build would leave. -/
theorem isBuilt_followAll (hproject : project.IsRegular) {ws ws' edited : Workspace}
    {changes : List Change} (hbuilt : project.IsBuilt ws)
    (hbatches : Relation.ReflTransGen project.Follows ws ws')
    (hround : project.Round ws' edited changes) :
    (∃ count, (project.followAll changes).result edited = .ok count) ∧
      project.IsBuilt ((project.followAll changes).after edited) := by
  have hbuilt' : project.IsBuilt ws' := by
    clear hround
    induction hbatches with
    | refl => exact hbuilt
    | tail _ hstep ih =>
      obtain ⟨edited, changes, hround, rfl⟩ := hstep
      exact (hround.isBuilt hproject ih).2
  exact hround.isBuilt hproject hbuilt'

/-! ## Concrete rounds -/

/-- Whether a clean build ends well and no view fails in it can be computed. -/
theorem buildsCleanly_of_ok {ws : Workspace}
    (h : (match (project.build true).result ws with
      | .ok summary => summary.ok
      | .error _ => false) = true) : project.BuildsCleanly ws := by
  unfold BuildsCleanly
  split at h
  · next summary hsummary => exact ⟨summary, hsummary, h⟩
  · cases h

/-- Changes report what became of the views of two trees if they do so where one of them has
something. -/
theorem reports_of_forall_places {before after : FileTree} {changes : List Change}
    (husable : ∀ change ∈ changes, change.path.isUsable = true)
    (hfits : ∀ change ∈ changes, project.owns (project.placeOf change) = true →
      change.kind.Fits (before.content? (project.placeOf change))
        (after.content? (project.placeOf change)))
    (hcomplete : ∀ place ∈ before.places ++ after.places,
      project.owns place = true ∧ place ∉ changes.map project.placeOf →
        before.content? place = after.content? place)
    (honce : ((changes.map project.placeOf).filter project.owns).Nodup) :
    project.Reports before after changes where
  usable := husable
  fits := hfits
  complete _ howns hne := Decidable.byContradiction fun hother =>
    hne (FileTree.content?_eq_of_forall_places hcomplete ⟨howns, hother⟩)
  once := honce

/-- The project of the examples is regular. -/
theorem isRegular_beside : beside.IsRegular where
  cache := by decide
  views := by decide
  extension_ne := by decide
  isPlain := List.all_eq_true.mp (by decide)

/-- The files of a project with these entries in the folder of the views, and in the cache the
compiled form of the view `x` as that of `a`. -/
def viewing (views : List (String × FileTree)) : Workspace where
  files := .folder [("v", .folder views),
    ("c", .folder [(".gitignore", .file "*".toUTF8),
      ("a.php", .file
        "<?php\n\ndeclare(strict_types=1);\n\nreturn static fn(): string => 'x';\n".toUTF8)])]
  log := []

/-- A view `x`. -/
def viewX : String × FileTree := ("a.anx.php", .file "x".toUTF8)

/-- After a clean build of the view `x`, a change of that view is followed. -/
theorem isBuilt_followAll_modified :
    beside.IsBuilt ((beside.followAll [⟨.modified, .ofPlace ["v", "a.anx.php"]⟩]).after
      (viewing [("a.anx.php", .file "y".toUTF8)])) := by
  have hbuilt : beside.IsBuilt (viewing [viewX]) := {
    cleanly := buildsCleanly_of_ok (by decide +kernel)
    cache names := FileTree.content?_eq_of_forall_places (P := fun _ => True)
      (by decide +kernel) trivial }
  have hround : beside.Round (viewing [viewX]) (viewing [("a.anx.php", .file "y".toUTF8)])
      [⟨.modified, .ofPlace ["v", "a.anx.php"]⟩] := {
    edit _ hplace := FileTree.content?_eq_of_forall_places
      (P := fun place => ¬ beside.views <+: place) (by decide +kernel) hplace
    reports := reports_of_forall_places (by decide +kernel) (by decide +kernel) (by decide +kernel)
      (by decide +kernel)
    failures := by decide +kernel
    cleanly := buildsCleanly_of_ok (by decide +kernel) }
  exact (isBuilt_followAll isRegular_beside hbuilt .refl hround).2

/-! ## A view that is in the way -/

/-- A view whose output needs a folder where the view `x` has its output. -/
def blockedView : String × FileTree := ("a.php", .folder [("b.anx.php", .file "y".toUTF8)])

/-- The project lists the view and the one that it blocks. -/
theorem discover_blocked : beside.discover (viewing [viewX, blockedView]).files =
    .ok [["v", "a.anx.php"], ["v", "a.php", "b.anx.php"]] := by
  have hbelow : (FileTree.folder [viewX, blockedView]).places.eraseDups.filter
      (FileTree.folder [viewX, blockedView]).hasFile =
        [["a.anx.php"], ["a.php", "b.anx.php"]] := by
    decide +kernel
  rw [discover_eq_ok rfl (by decide +kernel) hbelow (by decide +kernel)]
  exact congrArg Except.ok (by decide +kernel)

/-- A clean build of both views leaves no output of the second. -/
theorem content?_build_blocked (place : Place) :
    (viewing [viewX, blockedView]).files.content? place =
      ((beside.build true).after (viewing [viewX, blockedView])).files.content? place := by
  unfold build
  rw [after_bind (result_listViews.mpr discover_blocked), after_listViews]
  exact FileTree.content?_eq_of_forall_places (P := fun _ => True) (by decide +kernel) trivial

/-- The view `x` is deleted. -/
theorem round_blocked :
    beside.Round (viewing [viewX, blockedView]) (viewing [blockedView])
      [⟨.deleted, .ofPlace ["v", "a.anx.php"]⟩] where
  edit _ hplace := FileTree.content?_eq_of_forall_places
    (P := fun place => ¬ beside.views <+: place) (by decide +kernel) hplace
  reports := reports_of_forall_places (by decide +kernel) (by decide +kernel) (by decide +kernel)
    (by decide +kernel)
  failures := by decide +kernel
  cleanly := buildsCleanly_of_ok (by decide +kernel)

/-- A view that failed in a clean build because of another view is not tried again when that view
is deleted, so following the batch does not leave what a clean build would leave. -/
theorem exists_not_isBuilt_followAll :
    ∃ (project : Project) (ws edited : Workspace) (changes : List Change),
      project.IsRegular ∧
      (∀ names, ws.files.content? (project.cache ++ names) =
        ((project.build true).after ws).files.content? (project.cache ++ names)) ∧
      project.Round ws edited changes ∧
      ¬ project.IsBuilt ((project.followAll changes).after edited) := by
  refine ⟨beside, viewing [viewX, blockedView], viewing [blockedView], _, isRegular_beside,
    fun _ => content?_build_blocked _, round_blocked, fun hbuilt => ?_⟩
  have hcache := hbuilt.cache ["a.php", "b.php"]
  revert hcache
  decide +kernel

end Project

end ViewCompiler
