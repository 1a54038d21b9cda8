import ViewCompiler.Path

/-!
# Places that paths lead to

A path that is read from text has no empty names and none that is a dot, and following it from a
place takes each `..` as one step up. So from a place whose names are all names of files or folders
every text leads to such a place (`IsResolved.placeOfText`), which has one spelling only.
-/

namespace ViewCompiler

/-! ## Names of files -/

/-- The name is one of a file or a folder: not empty, neither `.` nor `..`, and without a slash. -/
structure IsFileName (name : String) : Prop where
  ne_empty : name ≠ ""
  ne_dot : name ≠ "."
  ne_dots : name ≠ ".."
  slash_notMem : '/' ∉ name.toList

instance IsFileName.decidable (name : String) : Decidable (IsFileName name) :=
  decidable_of_iff (name ≠ "" ∧ name ≠ "." ∧ name ≠ ".." ∧ '/' ∉ name.toList)
    ⟨fun ⟨hempty, hdot, hdots, hslash⟩ => ⟨hempty, hdot, hdots, hslash⟩,
      fun ⟨hempty, hdot, hdots, hslash⟩ => ⟨hempty, hdot, hdots, hslash⟩⟩

/-- Every name of the place is one of a file or a folder. -/
def IsResolved (place : Place) : Prop := ∀ name ∈ place, IsFileName name

instance IsResolved.decidable (place : Place) : Decidable (IsResolved place) :=
  inferInstanceAs (Decidable (∀ name ∈ place, IsFileName name))

/-! ## Paths that are read -/

/-- The separator stands in no part between separators. -/
theorem notMem_of_mem_splitOn {separator : Char} {part : List Char} :
    ∀ {cs : List Char}, part ∈ cs.splitOn separator → separator ∉ part
  | [], h => by
    obtain rfl := List.mem_singleton.mp h
    exact List.not_mem_nil
  | c :: cs, h => by
    rw [List.splitOn_cons_eq_if_modifyHead] at h
    split at h
    · cases h with
      | head => exact List.not_mem_nil
      | tail _ h => exact notMem_of_mem_splitOn h
    · rename_i hc
      cases hparts : cs.splitOn separator with
      | nil => exact absurd hparts (List.splitOn_ne_nil _ _)
      | cons first parts =>
        have hnone (other : List Char) (hother : other ∈ first :: parts) : separator ∉ other :=
          notMem_of_mem_splitOn (hparts ▸ hother)
        rw [hparts, List.modifyHead_cons] at h
        cases h with
        | head =>
          intro hmem
          rcases List.mem_cons.mp hmem with rfl | hmem
          · exact hc (beq_self_eq_true _)
          · exact hnone first List.mem_cons_self hmem
        | tail _ h => exact hnone part (List.mem_cons_of_mem _ h)

/-- A name of a path that is read is `..` or the name of a file or a folder. -/
theorem isFileName_of_mem_ofText {text name : String} (h : name ∈ (Path.ofText text).names)
    (hdots : name ≠ "..") : IsFileName name := by
  obtain ⟨hmem, hname⟩ := List.mem_filter.mp h
  obtain ⟨part, hpart, rfl⟩ := List.mem_map.mp hmem
  obtain ⟨hempty, hdot⟩ := Bool.and_eq_true_iff.mp hname
  refine ⟨bne_iff_ne.mp hempty, bne_iff_ne.mp hdot, hdots, ?_⟩
  rw [String.toList_ofList]
  exact notMem_of_mem_splitOn hpart

/-- Following names that are those of files, or `..`, leads to a place. -/
theorem IsResolved.climb {place : Place} (h : IsResolved place) {names : List String}
    (hnames : ∀ name ∈ names, name ≠ ".." → IsFileName name) : IsResolved (climb place names) := by
  induction names generalizing place with
  | nil => exact h
  | cons name names ih =>
    obtain ⟨hname, hnames⟩ := List.forall_mem_cons.mp hnames
    refine ih ?_ hnames
    dsimp only
    split
    · exact fun other hother => h other (List.dropLast_subset _ hother)
    · rename_i hdots
      exact List.forall_mem_append.mpr ⟨h, List.forall_mem_singleton.mpr (hname hdots)⟩

/-- The place that a text leads to as a path. -/
def placeOfText (base : Place) (text : String) : Place := (Path.ofText text).place base

/-- **Every text leads to a place**, whatever dots and slashes it holds. -/
theorem IsResolved.placeOfText {base : Place} (h : IsResolved base) (text : String) :
    IsResolved (placeOfText base text) := by
  have hnames : ∀ name ∈ (Path.ofText text).names, name ≠ ".." → IsFileName name :=
    fun _ => isFileName_of_mem_ofText
  have hroot : IsResolved [] := fun _ hmem => absurd hmem List.not_mem_nil
  rw [ViewCompiler.placeOfText, Path.place]
  split
  · exact h.climb hnames
  · exact hroot.climb hnames

end ViewCompiler
