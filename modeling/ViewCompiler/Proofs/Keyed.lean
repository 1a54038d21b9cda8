import Mathlib.Data.List.Basic
import Mathlib.Data.List.Induction
import ViewCompiler.Keyed

/-!
# Collecting values by their keys

What is collected are values (`mem_of_mem_collectBy`): the keys in the order of their first values
(`map_collectBy`), each with its last value (`find?_collectBy`). Nothing takes the place of
anything if all keys are different (`collectBy_eq_self`). A list without its repetitions has none
(`nodup_eraseDups`).
-/

namespace ViewCompiler

variable {α κ : Type} [DecidableEq κ]

/-- A value with a new key is put at the end. -/
theorem putBy_eq_append {key : α → κ} {value : α} {entries : List α}
    (h : key value ∉ entries.map key) : putBy key value entries = entries ++ [value] := by
  induction entries with
  | nil => rfl
  | cons entry entries ih =>
    rw [List.map_cons, List.mem_cons, not_or] at h
    rw [putBy, if_neg (Ne.symm h.1), ih h.2, List.cons_append]

/-- Putting a value adds nothing else. -/
theorem mem_of_mem_putBy {key : α → κ} {value : α} {entries : List α} {a : α}
    (h : a ∈ putBy key value entries) : a = value ∨ a ∈ entries := by
  induction entries with
  | nil => exact .inl (List.mem_singleton.mp h)
  | cons entry entries ih =>
    rw [putBy] at h
    split at h
    · exact (List.mem_cons.mp h).imp_right (List.mem_cons_of_mem _)
    · rcases List.mem_cons.mp h with rfl | h
      · exact .inr List.mem_cons_self
      · exact (ih h).imp_right (List.mem_cons_of_mem _)

/-- A value that is entered is found under its key, and the others under theirs. -/
theorem find?_putBy (key : α → κ) (value : α) (entries : List α) (k : κ) :
    (putBy key value entries).find? (key · = k) =
      if key value = k then some value else entries.find? (key · = k) := by
  induction entries with
  | nil => by_cases h : key value = k <;> simp [putBy, h]
  | cons entry entries ih =>
    rw [putBy]
    split
    · rename_i heq
      by_cases h : key value = k
      · simp [h]
      · simp [h, heq]
    · rename_i hne
      by_cases hk : key entry = k
      · have hvalue : key value ≠ k := fun h => hne (hk.trans h.symm)
        simp [hk, hvalue]
      · simp [hk, ih]

/-- The last value is entered last. -/
theorem collectBy_concat (key : α → κ) (values : List α) (value : α) :
    collectBy key (values ++ [value]) = putBy key value (collectBy key values) := by
  rw [collectBy, List.foldl_append]
  rfl

/-- Nothing is collected but the values. -/
theorem mem_of_mem_collectBy {key : α → κ} {values : List α} {a : α}
    (h : a ∈ collectBy key values) : a ∈ values := by
  induction values using List.reverseRecOn with
  | nil => exact h
  | append_singleton values value ih =>
    rw [collectBy_concat] at h
    rcases mem_of_mem_putBy h with rfl | h
    · exact List.mem_append_right _ List.mem_cons_self
    · exact List.mem_append_left _ (ih h)

/-- Values with different keys are collected as they are. -/
theorem collectBy_eq_self {key : α → κ} {values : List α} (h : (values.map key).Nodup) :
    collectBy key values = values := by
  induction values using List.reverseRecOn with
  | nil => rfl
  | append_singleton values value ih =>
    rw [List.map_append, List.map_singleton] at h
    have hvalue : key value ∉ values.map key := fun hmem =>
      (List.nodup_append.mp h).2.2 _ hmem _ List.mem_cons_self rfl
    rw [collectBy_concat, ih (List.nodup_append.mp h).1, putBy_eq_append hvalue]

/-- **Each key keeps its last value.** -/
theorem find?_collectBy (key : α → κ) (values : List α) (k : κ) :
    (collectBy key values).find? (key · = k) = values.reverse.find? (key · = k) := by
  induction values using List.reverseRecOn with
  | nil => rfl
  | append_singleton values value ih =>
    rw [collectBy_concat, find?_putBy, ih, List.reverse_append]
    by_cases h : key value = k <;> simp [h]

/-- An element at the end that is not new is a repetition. -/
theorem eraseDups_concat (l : List κ) (a : κ) :
    (l ++ [a]).eraseDups = if a ∈ l then l.eraseDups else l.eraseDups ++ [a] := by
  rw [List.eraseDups_append]
  by_cases h : a ∈ l
  · simp [h, List.removeAll]
  · simp [h, List.removeAll, List.eraseDups_cons]

/-- **The keys are in the order of their first values.** -/
theorem map_collectBy (key : α → κ) (values : List α) :
    (collectBy key values).map key = (values.map key).eraseDups := by
  induction values using List.reverseRecOn with
  | nil => rfl
  | append_singleton values value ih =>
    rw [collectBy_concat, map_putBy, ih, List.map_append, List.map_singleton, eraseDups_concat]
    simp only [List.mem_eraseDups]

/-- Which values have one key is all that matters of the keys. -/
theorem collectBy_congr {ι : Type} [DecidableEq ι] {key : α → κ} {other : α → ι} {values : List α}
    (h : ∀ a ∈ values, ∀ b ∈ values, key a = key b ↔ other a = other b) :
    collectBy key values = collectBy other values := by
  have hput : ∀ (value : α) (entries : List α),
      (∀ a ∈ entries, key a = key value ↔ other a = other value) →
        putBy key value entries = putBy other value entries := by
    intro value entries hentries
    induction entries with
    | nil => rfl
    | cons entry entries ih =>
      obtain ⟨hentry, hentries⟩ := List.forall_mem_cons.mp hentries
      simp only [putBy, hentry, ih hentries]
  induction values using List.reverseRecOn with
  | nil => rfl
  | append_singleton values value ih =>
    have hvalues := ih fun a ha b hb =>
      h a (List.mem_append_left _ ha) b (List.mem_append_left _ hb)
    rw [collectBy_concat, collectBy_concat, ← hvalues]
    refine hput value _ fun a ha => h a ?_ value (List.mem_append_right _ List.mem_cons_self)
    exact List.mem_append_left _ (mem_of_mem_collectBy ha)

/-- A list without its duplicates has none. -/
theorem nodup_eraseDups [BEq α] [LawfulBEq α] (l : List α) : l.eraseDups.Nodup := by
  match l with
  | [] => exact List.nodup_nil
  | a :: l =>
    rw [List.eraseDups_cons, List.nodup_cons]
    exact ⟨by simp, nodup_eraseDups _⟩
termination_by l.length
decreasing_by exact Nat.lt_succ_of_le (List.length_filter_le _ l)

/-- Values that stay in a list occur first in the same order as before. -/
theorem idxOf_lt_idxOf_of_filter {p : κ → Bool} {l : List κ} {a b : κ} (ha : p a = true)
    (hb : p b = true) (h : (l.filter p).idxOf a < (l.filter p).idxOf b) :
    l.idxOf a < l.idxOf b := by
  induction l with
  | nil => exact h
  | cons c l ih =>
    by_cases hca : c = a
    · subst hca
      have hne : c ≠ b := by
        rintro rfl
        exact absurd h (Nat.lt_irrefl _)
      rw [List.idxOf_cons_self, List.idxOf_cons_ne l hne]
      exact Nat.succ_pos _
    · by_cases hcb : c = b
      · subst hcb
        rw [List.filter_cons_of_pos hb, List.idxOf_cons_self] at h
        exact absurd h (Nat.not_lt_zero _)
      · rw [List.idxOf_cons_ne l hca, List.idxOf_cons_ne l hcb]
        refine Nat.succ_lt_succ (ih ?_)
        by_cases hc : p c = true
        · rw [List.filter_cons_of_pos hc, List.idxOf_cons_ne _ hca, List.idxOf_cons_ne _ hcb] at h
          exact Nat.lt_of_succ_lt_succ h
        · rwa [List.filter_cons_of_neg hc] at h

/-- A list without its repetitions is in the order of the first occurrences. -/
theorem pairwise_eraseDups (l : List κ) :
    l.eraseDups.Pairwise fun a b => l.idxOf a < l.idxOf b := by
  match l with
  | [] => exact List.Pairwise.nil
  | a :: l =>
    have hother : ∀ b ∈ (l.filter fun b => !b == a).eraseDups, (!b == a) = true := fun b hb =>
      (List.mem_filter.mp (List.mem_eraseDups.mp hb)).2
    rw [List.eraseDups_cons, List.pairwise_cons]
    refine ⟨fun b hb => ?_, (pairwise_eraseDups (l.filter fun b => !b == a)).imp_of_mem ?_⟩
    · have hne : a ≠ b := by
        rintro rfl
        simpa using hother a hb
      rw [List.idxOf_cons_self, List.idxOf_cons_ne l hne]
      exact Nat.succ_pos _
    · intro b c hb hc hlt
      have hfilter : (a :: l).filter (fun b => !b == a) = l.filter fun b => !b == a :=
        List.filter_cons_of_neg (by simp)
      rw [← hfilter] at hlt
      exact idxOf_lt_idxOf_of_filter (hother b hb) (hother c hc) hlt
termination_by l.length
decreasing_by exact Nat.lt_succ_of_le (List.length_filter_le _ l)

end ViewCompiler
