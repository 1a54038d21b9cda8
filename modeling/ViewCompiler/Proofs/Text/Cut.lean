import ViewCompiler.Text.Cut

/-!
# The first mark

Where a text is cut at a mark depends on the text up to the mark and on nothing behind it
(`cut?_append_iff`). `FirstMark barrier mark before` says that the mark behind `before` is the one
at which the text is cut.
-/

namespace ViewCompiler.Text

variable {barrier : Char → Bool} {mark before after cs rest : List Char}

/-- A text without a start. -/
theorem remainder?_eq_none_iff : remainder? mark cs = none ↔ ¬ mark <+: cs := by
  rw [Option.eq_none_iff_forall_ne_some]
  constructor
  · rintro h ⟨rest, hrest⟩
    exact h rest (remainder?_eq_some_iff.mpr hrest)
  · intro h rest hrest
    exact h ⟨rest, remainder?_eq_some_iff.mp hrest⟩

/-- A text that starts with the mark is cut there. -/
theorem cut?_of_remainder? (h : remainder? mark cs = some rest) :
    cut? barrier mark cs = some ([], rest) := by
  cases cs with
  | nil => rw [cut?, h, Option.map_some]
  | cons c cs => rw [cut?, h]

/-- The mark behind the text is the first one, and no barrier stands before it. -/
def FirstMark (barrier : Char → Bool) (mark before : List Char) : Prop :=
  cut? barrier mark (before ++ mark) = some (before, [])

instance : Decidable (FirstMark barrier mark before) := inferInstanceAs (Decidable (_ = _))

/-- **What stands behind the first mark does not matter.** -/
theorem cut?_append_iff (rest : List Char) :
    cut? barrier mark (before ++ (mark ++ rest)) = some (before, rest) ↔
      FirstMark barrier mark before := by
  induction before with
  | nil =>
    have hrest : remainder? mark (mark ++ rest) = some rest := remainder?_eq_some_iff.mpr rfl
    have hnil : remainder? mark mark = some [] := remainder?_eq_some_iff.mpr (List.append_nil _)
    rw [FirstMark, List.nil_append, List.nil_append, cut?_of_remainder? hrest,
      cut?_of_remainder? hnil]
    exact ⟨fun _ => rfl, fun _ => rfl⟩
  | cons c before ih =>
    -- A mark fits into the text up to the end of the mark behind it or not at all.
    have hstarts : mark <+: c :: before ++ (mark ++ rest) ↔ mark <+: c :: before ++ mark := by
      rw [← List.append_assoc]
      constructor
      · intro h
        refine List.prefix_of_prefix_length_le h (List.prefix_append _ rest) ?_
        rw [List.length_append]
        omega
      · exact fun h => h.trans (List.prefix_append _ rest)
    by_cases hmark : mark <+: c :: before ++ mark
    · obtain ⟨after, hafter⟩ := hmark
      obtain ⟨after', hafter'⟩ := hstarts.mpr ⟨after, hafter⟩
      rw [FirstMark, cut?_of_remainder? (remainder?_eq_some_iff.mpr hafter),
        cut?_of_remainder? (remainder?_eq_some_iff.mpr hafter')]
      simp
    · have hnone := remainder?_eq_none_iff.mpr hmark
      have hnone' := remainder?_eq_none_iff.mpr (mt hstarts.mp hmark)
      rw [FirstMark, List.cons_append, List.cons_append, cut?, cut?]
      rw [List.cons_append] at hnone hnone'
      rw [hnone, hnone']
      by_cases hbarrier : barrier c = true
      · simp [hbarrier]
      · simp only [hbarrier, Bool.false_eq_true, ↓reduceIte, Option.map_eq_some_iff,
          Prod.mk.injEq, List.cons.injEq, true_and, Prod.exists, exists_eq_right_right,
          exists_eq_right]
        exact ih

/-- A start without a character that reaches up to it ends before it. -/
theorem prefix_of_prefix_append_cons {c : Char} {w m : List Char} (hw : c ∉ w)
    (h : w <+: m ++ c :: rest) : w <+: m := by
  obtain ⟨t, ht⟩ := h
  rcases List.append_eq_append_iff.mp ht with ⟨k, rfl, -⟩ | ⟨k, rfl, hk⟩
  · exact List.prefix_append _ _
  · cases k with
    | nil => exact ⟨[], by simp⟩
    | cons d k =>
      obtain ⟨rfl, -⟩ := List.cons.inj hk
      simp at hw

/-- One more character in front keeps a mark the first one, if no mark starts there. -/
theorem firstMark_cons {c : Char} (hstarts : ¬ mark <+: c :: (before ++ mark))
    (hbarrier : barrier c = false) (h : FirstMark barrier mark before) :
    FirstMark barrier mark (c :: before) := by
  have hcut : cut? barrier mark (before ++ mark) = some (before, []) := h
  rw [FirstMark, List.cons_append, cut?, remainder?_eq_none_iff.mpr hstarts]
  simp [hbarrier, hcut]

/-- No barrier stands before the first mark. -/
theorem FirstMark.barrier_eq_false (h : FirstMark barrier mark before) :
    ∀ c ∈ before, barrier c = false := by
  induction before with
  | nil => exact fun _ hc => nomatch hc
  | cons c before ih =>
    rw [FirstMark, List.cons_append, cut?] at h
    split at h
    · simp at h
    · split at h
      · cases h
      · rename_i hc
        obtain ⟨found, hfound, heq⟩ := Option.map_eq_some_iff.mp h
        obtain ⟨hbefore, hafter⟩ := Prod.mk.inj heq
        obtain rfl := (List.cons.inj hbefore).2
        obtain ⟨before, after⟩ := found
        obtain rfl : after = [] := hafter
        exact List.forall_mem_cons.mpr ⟨by simpa using hc, ih hfound⟩

/-- A mark without blanks that does not stand in a text stands first behind the padded text. -/
theorem firstMark_padding (hne : mark ≠ []) (hmark : ' ' ∉ mark) (hspace : barrier ' ' = false)
    (hbarrier : ∀ c ∈ before, barrier c = false) (h : ¬ mark <:+: before) :
    FirstMark barrier mark (' ' :: (before ++ [' '])) := by
  have hstart : ∀ cs, ¬ mark <+: ' ' :: cs := by
    rintro cs ⟨rest, hrest⟩
    cases mark with
    | nil => exact hne rfl
    | cons d mark =>
      obtain ⟨rfl, -⟩ := List.cons.inj hrest
      exact hmark List.mem_cons_self
  refine firstMark_cons (hstart _) hspace ?_
  induction before with
  | nil =>
    exact firstMark_cons (hstart _) hspace
      (cut?_of_remainder? (remainder?_eq_some_iff.mpr (by simp)))
  | cons c before ih =>
    obtain ⟨hc, hbefore⟩ := List.forall_mem_cons.mp hbarrier
    refine firstMark_cons (fun hstarts => h ?_) hc (ih hbefore fun hin => h ?_)
    · -- The blank is no character of the mark, so the mark would stand in the text.
      have hassoc : c :: (before ++ [' '] ++ mark) = (c :: before) ++ ' ' :: mark := by simp
      exact (prefix_of_prefix_append_cons hmark (hassoc ▸ hstarts)).isInfix
    · exact List.infix_cons hin

/-- A text is cut at its first mark. -/
theorem firstMark_of_cut? (h : cut? barrier mark cs = some (before, after)) :
    FirstMark barrier mark before := by
  rw [← cut?_append_iff after, ← List.append_assoc, append_of_cut? h]
  exact h

end ViewCompiler.Text
