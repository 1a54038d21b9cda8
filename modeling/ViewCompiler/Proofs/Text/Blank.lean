import Mathlib.Data.List.TakeWhile
import ViewCompiler.Text.Blank

/-!
# Trimmed texts

A text that is trimmed has no blank at either end, trimming gives such a text (`isTrimmed_trim`),
and trimming undoes the blanks put around it (`trim_surrounded`).
-/

namespace ViewCompiler.Text

/-- The text has no blanks at its ends. -/
def IsTrimmed (cs : List Char) : Prop := trim cs = cs

instance (cs : List Char) : Decidable (IsTrimmed cs) := inferInstanceAs (Decidable (_ = _))

/-- Trimming makes no text longer. -/
theorem length_trimEnd_le (cs : List Char) : (trimEnd cs).length ≤ cs.length := by
  have h := (List.dropWhile_suffix (p := isBlank) (l := cs.reverse)).length_le
  rw [List.length_reverse] at h
  rwa [trimEnd, List.length_reverse]

/-- Neither end of a trimmed text loses anything. -/
theorem IsTrimmed.ends {cs : List Char} (h : IsTrimmed cs) :
    trimStart cs = cs ∧ trimEnd cs = cs := by
  have hstart : trimStart cs = cs := by
    have hsuffix : trimStart cs <:+ cs := List.dropWhile_suffix isBlank
    refine hsuffix.eq_of_length_le ?_
    have hlength := length_trimEnd_le (trimStart cs)
    rwa [show trimEnd (trimStart cs) = cs from h] at hlength
  refine ⟨hstart, ?_⟩
  have hend : trimEnd (trimStart cs) = cs := h
  rwa [hstart] at hend

/-- A trimmed text does not start with a blank. -/
theorem IsTrimmed.isBlank_head {c : Char} {cs : List Char} (h : IsTrimmed (c :: cs)) :
    isBlank c = false := by
  have hstart := h.ends.1
  cases hc : isBlank c with
  | false => rfl
  | true =>
    rw [trimStart, List.dropWhile_cons, if_pos hc] at hstart
    have hlength := (List.dropWhile_suffix (p := isBlank) (l := cs)).length_le
    rw [hstart, List.length_cons] at hlength
    omega

/-- A trimmed text does not end with a blank. -/
theorem IsTrimmed.isBlank_getLast {cs : List Char} (h : IsTrimmed cs) :
    ∀ c ∈ cs.getLast?, isBlank c = false := by
  intro c hc
  have hend := h.ends.2
  rw [List.getLast?_eq_head?_reverse] at hc
  rw [trimEnd, ← List.reverse_inj, List.reverse_reverse] at hend
  rw [← hend] at hc
  have hhead := List.head?_dropWhile_not isBlank cs.reverse
  rw [Option.mem_def.mp hc] at hhead
  simpa using hhead

/-- A text between characters that are no blanks is trimmed. -/
theorem isTrimmed_of_ends {cs : List Char} (hhead : ∀ c ∈ cs.head?, isBlank c = false)
    (hlast : ∀ c ∈ cs.getLast?, isBlank c = false) : IsTrimmed cs := by
  have hstart : trimStart cs = cs := by
    cases cs with
    | nil => rfl
    | cons c cs => rw [trimStart, List.dropWhile_cons, if_neg (by simp [hhead c rfl])]
  rw [IsTrimmed, trim, hstart, trimEnd]
  rw [List.getLast?_eq_head?_reverse] at hlast
  cases hrev : cs.reverse with
  | nil => rw [List.reverse_eq_nil_iff.mp hrev]; rfl
  | cons c rest =>
    rw [hrev] at hlast
    rw [List.dropWhile_cons, if_neg (by simp [hlast c rfl]), ← hrev, List.reverse_reverse]

/-- What is left after trimming has nothing to trim. -/
theorem isTrimmed_trim (cs : List Char) : IsTrimmed (trim cs) := by
  have hprefix : trim cs <+: trimStart cs := by
    rw [trim, trimEnd, ← List.reverse_suffix, List.reverse_reverse]
    exact List.dropWhile_suffix isBlank
  refine isTrimmed_of_ends (fun c hc => ?_) (fun c hc => ?_)
  · obtain ⟨rest, hrest⟩ := List.head?_eq_some_iff.mp hc
    obtain ⟨after, hafter⟩ := hprefix
    rw [hrest] at hafter
    have hhead := List.head?_dropWhile_not isBlank cs
    rw [show cs.dropWhile isBlank = c :: (rest ++ after) from hafter.symm] at hhead
    simpa using hhead
  · have hhead := List.head?_dropWhile_not isBlank (trimStart cs).reverse
    rw [trim, trimEnd, List.getLast?_reverse] at hc
    rw [Option.mem_def.mp hc] at hhead
    simpa using hhead

/-- Trimming does not empty a text that starts without a blank. -/
theorem trim_ne_nil {c : Char} {cs : List Char} (hc : isBlank c = false) :
    trim (c :: cs) ≠ [] := by
  intro h
  rw [trim, trimStart, List.dropWhile_cons, if_neg (by simp [hc]), trimEnd,
    List.reverse_eq_nil_iff,
    List.dropWhile_eq_nil_iff] at h
  have hblank := h c (by simp)
  rw [hc] at hblank
  cases hblank

/-- Blanks at the start are trimmed. -/
theorem trimStart_append {blanks : List Char} (h : ∀ c ∈ blanks, isBlank c = true)
    (cs : List Char) :
    trimStart (blanks ++ cs) = trimStart cs :=
  List.dropWhile_append_of_pos h

/-- Blanks at the end are trimmed. -/
theorem trimEnd_append {blanks : List Char} (h : ∀ c ∈ blanks, isBlank c = true) (cs : List Char) :
    trimEnd (cs ++ blanks) = trimEnd cs := by
  rw [trimEnd, List.reverse_append, List.dropWhile_append_of_pos, trimEnd]
  exact fun c hc => h c (List.mem_reverse.mp hc)

/-- Trimming removes the blanks around a trimmed text. -/
theorem trim_surrounded {front cs back : List Char} (h : IsTrimmed cs)
    (hfront : ∀ c ∈ front, isBlank c = true) (hback : ∀ c ∈ back, isBlank c = true) :
    trim (front ++ (cs ++ back)) = cs := by
  rw [trim, trimStart_append hfront]
  cases cs with
  | nil =>
    have hnil : trimStart back = [] := List.dropWhile_eq_nil_iff.mpr hback
    rw [List.nil_append, hnil]
    rfl
  | cons c cs =>
    rw [List.cons_append, trimStart, List.dropWhile_cons, if_neg (by simp [h.isBlank_head]),
      ← List.cons_append, trimEnd_append hback]
    exact h.ends.2

/-- Trimming a text between two blanks gives the text. -/
theorem trim_padding {cs : List Char} (h : IsTrimmed cs) : trim (' ' :: (cs ++ [' '])) = cs :=
  trim_surrounded h (List.forall_mem_singleton.mpr (by decide) : ∀ c ∈ [' '], isBlank c = true)
    (List.forall_mem_singleton.mpr (by decide))

end ViewCompiler.Text
