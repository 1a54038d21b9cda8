import ViewCompiler.Proofs.Path
import ViewCompiler.Proofs.Project.Following

/-!
# Where outputs are

The output of a view is in the folder of the cache that the view's own folder is among the views,
however the paths of the view and of the settings are spelled (`IsOutputFor`). With an extension
the name of the output has what the view's name has before it, so views at different places have
different outputs. Without one nothing is left of the name, and all views of one folder have the
same output (`outputs_apart`).
-/

namespace ViewCompiler.Project

variable {project : Project}

/-! ## Names of outputs -/

/-- The name of an output is the start of the view's name, and `.php`. -/
theorem exists_outputName (extension name : String) :
    ∃ stem, stem <+: name.toList ∧ (outputName extension name).toList = stem ++ ".php".toList := by
  rw [outputName]
  split
  · exact ⟨[], List.nil_prefix, rfl⟩
  · exact ⟨_, List.take_prefix _ _, by rw [String.toList_append, String.toList_ofList]⟩

/-- The output of a view is named as a file is. -/
theorem isFileName_outputName {name : String} (h : IsFileName name) (extension : String) :
    IsFileName (outputName extension name) := by
  obtain ⟨stem, hstem, hname⟩ := exists_outputName extension name
  have hne : ∀ other : String, other.toList.length < 4 → outputName extension name ≠ other := by
    rintro other hshort rfl
    rw [hname, List.length_append] at hshort
    exact absurd hshort (Nat.not_lt.mpr (Nat.le_add_left 4 _))
  refine ⟨hne "" (by decide), hne "." (by decide), hne ".." (by decide), ?_⟩
  rw [hname, List.mem_append, not_or]
  exact ⟨fun hmem => h.slash_notMem (hstem.subset hmem), by decide⟩

/-- No output has the name of the file that keeps the cache out of version control. -/
theorem outputName_ne_ignore (extension name : String) :
    outputName extension name ≠ ".gitignore" := by
  intro heq
  obtain ⟨stem, -, hname⟩ := exists_outputName extension name
  rw [heq] at hname
  have hsuffix : ".php".toList <:+ ".gitignore".toList := ⟨stem, hname.symm⟩
  exact absurd hsuffix (by decide)

/-! ## The output of one view -/

/-- The place is one for the compiled form of a view: strictly below the cache, in the folder there
that the view's folder is among the views, with names of files and folders only, and not the place
of the file that keeps the cache out of version control. -/
structure IsOutputFor (project : Project) (view place : Place) : Prop where
  exists_folder : ∃ folder name name', view = project.views ++ folder ++ [name] ∧
    place = project.cache ++ folder ++ [name']
  isResolved : IsResolved place
  ne_ignoreFile : place ≠ project.ignoreFile

/-- A view that is owned has an output. -/
theorem isOutputFor_output (hcache : IsResolved project.cache) {names : List String}
    (hview : IsResolved (project.views ++ names)) (hnames : project.isViewNames names = true) :
    project.IsOutputFor (project.views ++ names) (project.output names) := by
  have hsplit := eq_dropLast_append hnames
  have hnames' : IsResolved names := fun name hname => hview name (List.mem_append_right _ hname)
  have hmem : names.getLastD "" ∈ names.dropLast ++ [names.getLastD ""] :=
    List.mem_append_right _ (List.mem_singleton_self _)
  rw [← hsplit] at hmem
  have hlast : IsFileName (names.getLastD "") := hnames' _ hmem
  refine ⟨⟨names.dropLast, names.getLastD "", outputName project.extension (names.getLastD ""),
    ?_, ?_⟩, ?_, ?_⟩
  · rw [List.append_assoc, ← hsplit]
  · rw [output, outputNames, List.append_assoc]
  · rw [output, outputNames]
    refine List.forall_mem_append.mpr ⟨hcache, List.forall_mem_append.mpr
      ⟨fun name hname => hnames' name (List.dropLast_subset _ hname), ?_⟩⟩
    exact List.forall_mem_singleton.mpr (isFileName_outputName hlast _)
  · intro heq
    have hignore : outputNames project.extension names = [] ++ [".gitignore"] :=
      List.append_cancel_left heq
    exact outputName_ne_ignore _ _ (List.singleton_inj.mp (List.append_inj' hignore rfl).2)

/-- Two views have the same output exactly if they are the same, or if there is no extension and
they are in the same folder. -/
theorem output_eq_iff {names others : List String} (hnames : project.isViewNames names = true)
    (hothers : project.isViewNames others = true) :
    project.output names = project.output others ↔
      names = others ∨ project.extension = "" ∧ names.dropLast = others.dropLast := by
  rw [output, output, List.append_cancel_left_eq]
  constructor
  · intro h
    by_cases hextension : project.extension = ""
    · exact .inr ⟨hextension, (List.append_inj' h rfl).1⟩
    · exact .inl (outputNames_injective hextension hnames hothers h)
  · rintro (rfl | ⟨hextension, hfolder⟩)
    · rfl
    · rw [outputNames, outputNames, hfolder, hextension]
      rfl

/-! ## Outputs of all views -/

/-- A path of the settings is read from a text, the default or one that is given. -/
theorem exists_placeOfText (base : Place) (text? : Option String) (default : String) :
    ∃ text, ((text?.map Path.ofText).getD (Path.ofText default)).place base =
      placeOfText base text := by
  cases text? with
  | none => exact ⟨default, rfl⟩
  | some text => exact ⟨text, rfl⟩

/-- The cache of a project is a place. -/
theorem isResolved_cache {base : Place} (hbase : IsResolved base) (given : Overrides) :
    IsResolved ((Config.override {} given).project base).cache := by
  obtain ⟨text, htext⟩ := exists_placeOfText base given.cache "cache/views"
  have hcache : ((Config.override {} given).project base).cache = placeOfText base text := htext
  rw [hcache]
  exact hbase.placeOfText text

/-- **Outputs of views at different places are different, unless there is no extension**, and every
output is strictly below the cache in the view's own folder. The paths of the settings and of the
views may be spelled with dots, steps up and repeated slashes. -/
theorem outputs_apart {project : Project} {given : Overrides} {base here : Place}
    (hproject : project = (Config.override {} given).project base)
    (hbase : IsResolved base) (hhere : IsResolved here) {first second : String}
    (hfirst : project.owns (placeOfText here first) = true)
    (hsecond : project.owns (placeOfText here second) = true) :
    ∃ out out', project.outputOf? (placeOfText here first) = some out ∧
      project.outputOf? (placeOfText here second) = some out' ∧
      project.IsOutputFor (placeOfText here first) out ∧
      project.IsOutputFor (placeOfText here second) out' ∧
      (out = out' ↔ placeOfText here first = placeOfText here second ∨
        project.extension = "" ∧
          (placeOfText here first).dropLast = (placeOfText here second).dropLast) := by
  have hcache : IsResolved project.cache := by
    rw [hproject]
    exact isResolved_cache hbase given
  have hview := hhere.placeOfText first
  have hother := hhere.placeOfText second
  obtain ⟨names, hplace, hnames⟩ := exists_of_owns hfirst
  obtain ⟨others, hplace', hothers⟩ := exists_of_owns hsecond
  rw [hplace] at hview ⊢
  rw [hplace'] at hother ⊢
  have hout (names : List String) :
      project.outputOf? (project.views ++ names) = some (project.output names) := by
    rw [outputOf?, namesBelow?_append, Option.map_some]
  refine ⟨project.output names, project.output others, hout names, hout others,
    isOutputFor_output hcache hview hnames, isOutputFor_output hcache hother hothers, ?_⟩
  have hne (names : List String) (h : project.isViewNames names = true) : names ≠ [] := by
    rw [eq_dropLast_append h]
    exact List.append_ne_nil_of_right_ne_nil _ (List.cons_ne_nil _ _)
  rw [output_eq_iff hnames hothers, List.append_cancel_left_eq,
    List.dropLast_append_of_ne_nil (hne names hnames),
    List.dropLast_append_of_ne_nil (hne others hothers), List.append_cancel_left_eq]

/-- The settings and the views are spelled with dots, steps up and repeated slashes, and the second
view is in a folder of its own. -/
theorem outputs_apart_steps :
    let project := (Config.override {} { views := "v/../w/", cache := "c//d" }).project ["p"]
    ∃ out out', project.outputOf? (placeOfText ["p", "w"] "./a.anx.php") = some out ∧
      project.outputOf? (placeOfText ["p", "w"] "../w//b/./a.anx.php") = some out' ∧
      out ≠ out' := by
  have hfirst : ((Config.override {} { views := "v/../w/", cache := "c//d" }).project ["p"]).owns
      (placeOfText ["p", "w"] "./a.anx.php") = true := by
    decide +kernel
  have hsecond : ((Config.override {} { views := "v/../w/", cache := "c//d" }).project ["p"]).owns
      (placeOfText ["p", "w"] "../w//b/./a.anx.php") = true := by
    decide +kernel
  obtain ⟨out, out', hout, hout', -, -, hiff⟩ :=
    outputs_apart rfl (by decide) (by decide) hfirst hsecond
  refine ⟨out, out', hout, hout', fun heq => ?_⟩
  rcases hiff.mp heq with hplace | ⟨hextension, -⟩
  · exact absurd hplace (by decide +kernel)
  · exact absurd hextension (by decide)

/-- Without an extension, two files of the views' folder have one output. -/
theorem exists_outputs_eq :
    let project := (Config.override {} { views := "v", cache := "c", extension := "" }).project
      ["p"]
    project.owns (placeOfText ["p"] "v/a") = true ∧
      project.owns (placeOfText ["p"] "v/b") = true ∧
      placeOfText ["p"] "v/a" ≠ placeOfText ["p"] "v/b" ∧
      project.outputOf? (placeOfText ["p"] "v/a") = some ["p", "c", ".php"] ∧
      project.outputOf? (placeOfText ["p"] "v/b") = some ["p", "c", ".php"] := by
  decide +kernel

end ViewCompiler.Project
