import Mathlib.Data.List.Nodup
import ViewCompiler.Proofs.Keyed
import ViewCompiler.Proofs.Project.Mirror

/-!
# The list of views

The views of a project are listed in the order of their places and each once, and they are the
files below the folder of the views whose names are those of views (`Project.Lists`). A pattern is
refused for two stars beside other signs, which an extension of plain characters has not
(`isPatternRefused_eq_false`), so such a project's views can be listed where their folder is there
(`exists_lists`).
-/

namespace ViewCompiler

/-! ## Files in order -/

/-- A place is not behind another exactly if the other does not come before it. -/
theorem placeLe_iff {a b : Place} : placeLe a b = true ↔ ¬ b < a := by
  rw [placeLe, Bool.not_eq_true', decide_eq_false_iff_not]

/-- The order of places is transitive. -/
theorem placeLe_trans (a b c : Place) (hab : placeLe a b = true) (hbc : placeLe b c = true) :
    placeLe a c = true := by
  rw [placeLe_iff, List.not_lt] at *
  exact List.le_trans hab hbc

/-- Of two places one is not behind the other. -/
theorem placeLe_total (a b : Place) : (placeLe a b || placeLe b a) = true := by
  rw [Bool.or_eq_true, placeLe_iff, placeLe_iff, List.not_lt, List.not_lt]
  exact List.le_total a b

/-- Places below one place are in the order of the names that lead there. -/
theorem placeLe_append {a b : Place} (h : placeLe a b = true) (place : Place) :
    placeLe (place ++ a) (place ++ b) = true := by
  rw [placeLe_iff, List.not_lt] at *
  exact List.append_left_le h

/-- Files are listed in order. -/
theorem FileTree.pairwise_files (tree : FileTree) :
    tree.files.Pairwise fun a b => placeLe a b = true :=
  List.pairwise_mergeSort placeLe_trans placeLe_total _

/-- Files are listed once. -/
theorem FileTree.nodup_files (tree : FileTree) : tree.files.Nodup :=
  (List.mergeSort_perm _ _).nodup_iff.mpr ((nodup_eraseDups _).filter _)

/-! ## Patterns of plain extensions -/

/-- A part of a text between separators is in the text. -/
theorem sublist_of_mem_splitOn {separator : Char} {part : List Char} :
    ∀ {cs : List Char}, part ∈ cs.splitOn separator → part.Sublist cs
  | [], h => by
    obtain rfl := List.mem_singleton.mp h
    exact List.nil_sublist []
  | c :: cs, h => by
    rw [List.splitOn, List.splitOnP_cons_eq_if_modifyHead] at h
    split at h
    · cases h with
      | head => exact List.nil_sublist _
      | tail _ h => exact (sublist_of_mem_splitOn h).cons c
    · cases hparts : cs.splitOnP (· == separator) with
      | nil => exact absurd hparts (List.splitOnP_ne_nil _ _)
      | cons first parts =>
        have hmem (other : List Char) (hother : other ∈ first :: parts) : other.Sublist cs :=
          sublist_of_mem_splitOn (hparts ▸ hother)
        rw [hparts, List.modifyHead_cons] at h
        cases h with
        | head => exact (hmem first List.mem_cons_self).cons_cons c
        | tail _ h => exact (hmem part (List.mem_cons_of_mem _ h)).cons c

/-- **The pattern of an extension of plain characters is not refused**: it has one star only. -/
theorem isPatternRefused_eq_false {extension : String}
    (h : ∀ c ∈ extension.toList, isPlain c = true) : isPatternRefused extension = false := by
  rw [isPatternRefused, List.any_eq_false]
  intro part hpart hrefused
  obtain ⟨-, hstars⟩ := Bool.and_eq_true_iff.mp hrefused
  obtain ⟨⟨before, after⟩, hcut⟩ := Option.isSome_iff_exists.mp hstars
  have hstar : '*' ∉ extension.toList := fun hmem => by
    have := h '*' hmem
    simp [isPlain] at this
  have hcount : part.count '*' ≤ 1 := by
    have hsub : part.Sublist ('*' :: extension.toList) :=
      sublist_of_mem_splitOn (List.mem_of_mem_filter hpart)
    have hone : ('*' :: extension.toList).count '*' = 1 := by
      rw [List.count_cons_self, List.count_eq_zero_of_not_mem hstar]
    exact hone ▸ hsub.count_le '*'
  rw [← Text.append_of_cut? hcut] at hcount
  simp only [List.count_append, List.count_cons_self, List.count_nil] at hcount
  omega

/-! ## Views -/

namespace Project

variable {project : Project} {files : FileTree} {views : List Place}

/-- The list is that of the files below the folder of the views that are views by their names, in
order and without repetitions. -/
structure Lists (project : Project) (files : FileTree) (views : List Place) : Prop where
  mem_iff : ∀ view, view ∈ views ↔ ∃ names, view = project.views ++ names ∧
    project.isViewNames names = true ∧ files.hasFile view = true
  ordered : views.Pairwise fun a b => placeLe a b = true
  nodup : views.Nodup

/-- What is listed below a folder is in the order of the names that lead there from the folder. -/
theorem exists_of_discover (h : project.discover files = .ok views) :
    ∃ below : List Place, views = below.map (project.views ++ ·) ∧
      (below.Pairwise fun a b => placeLe a b = true) ∧ below.Nodup := by
  unfold discover at h
  split at h
  · next entries hlook =>
    split at h
    · cases h
    · exact ⟨_, (Except.ok.inj h).symm, (FileTree.pairwise_files _).filter _,
        (FileTree.nodup_files _).filter _⟩
  · cases h
  · cases h

/-- The views that are found are all views. -/
theorem lists_of_discover (hplain : ∀ c ∈ project.extension.toList, isPlain c = true)
    (h : project.discover files = .ok views) : project.Lists files views := by
  obtain ⟨below, hviews, hordered, hnodup⟩ := exists_of_discover h
  refine ⟨fun view => ?_, ?_, ?_⟩
  · rw [mem_discover h view]
    simp only [isListed_eq_isView hplain, isViewNames]
  · rw [hviews, List.pairwise_map]
    exact hordered.imp fun h => placeLe_append h project.views
  · rw [hviews]
    exact hnodup.map fun _ _ h => List.append_cancel_left h

/-- A project's views are listed where their folder is there. -/
theorem exists_lists {entries : List (String × FileTree)}
    (hplain : ∀ c ∈ project.extension.toList, isPlain c = true)
    (hfolder : files.find? project.views = some (.folder entries)) :
    ∃ views, project.discover files = .ok views ∧ project.Lists files views := by
  obtain ⟨views, hviews⟩ := exists_discover hfolder (isPatternRefused_eq_false hplain)
  exact ⟨views, hviews, lists_of_discover hplain hviews⟩

end Project

end ViewCompiler
