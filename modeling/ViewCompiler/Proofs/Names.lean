import Mathlib.Data.List.Perm.Subperm
import Mathlib.Logic.Function.Defs
import ViewCompiler.Names

/-!
# Fresh names are fresh

The candidates for a name are pairwise different, so among one more candidate than there are taken
names one is free, and `fresh` finds the first of them (`isFirstFree_fresh`).
-/

namespace ViewCompiler

/-- The number of a candidate is written in digits. -/
theorem isDigit_of_mem_toString {n : Nat} {c : Char} (h : c ∈ (toString n).toList) :
    c.isDigit := by
  rw [Nat.toString_eq_repr, Nat.toList_repr] at h
  exact Nat.isDigit_of_mem_toDigits (by decide) (by decide) h

/-- Different numbers are written differently. -/
theorem toString_injective {m n : Nat} (h : toString m = toString n) : m = n := by
  have hdigits : Nat.toDigits 10 m = Nat.toDigits 10 n := by
    rw [← Nat.toList_repr, ← Nat.toList_repr, ← Nat.toString_eq_repr, ← Nat.toString_eq_repr, h]
  rw [← Nat.ofDigitChars_toDigits (b := 10) (n := m) (by decide) (by decide), hdigits,
    Nat.ofDigitChars_toDigits (by decide) (by decide)]

/-- A candidate is the base, or the base, an underscore and a number. -/
theorem toList_candidate (base : String) (n : Nat) :
    (candidate base n).toList = base.toList ∨
      ∃ digits, (candidate base n).toList = base.toList ++ '_' :: digits ∧ digits ≠ [] ∧
        ∀ c ∈ digits, c.isDigit := by
  cases n with
  | zero => exact .inl rfl
  | succ n =>
    refine .inr ⟨(toString (n + 2)).toList, ?_, ?_, fun c hc => isDigit_of_mem_toString hc⟩
    · rw [candidate, String.toList_append, String.toList_append, List.append_assoc]
      rfl
    · rw [Nat.toString_eq_repr, Nat.toList_repr]
      exact Nat.toDigits_ne_nil

/-- A candidate with a number is not the base. -/
theorem candidate_succ_ne (base : String) (n : Nat) : candidate base (n + 1) ≠ base := by
  intro h
  have hlen := congrArg (fun s => s.toList.length) h
  simp only [candidate, String.toList_append, List.length_append] at hlen
  have hunder : ("_".toList).length = 1 := rfl
  omega

/-- The candidates for a name are different from each other. -/
theorem candidate_injective (base : String) : Function.Injective (candidate base) := by
  intro m n h
  match m, n with
  | 0, 0 => rfl
  | 0, n + 1 => exact absurd h.symm (candidate_succ_ne base n)
  | m + 1, 0 => exact absurd h (candidate_succ_ne base m)
  | m + 1, n + 1 =>
    have hlists := congrArg String.toList h
    simp only [candidate, String.toList_append, List.append_assoc] at hlists
    have hnumber := List.append_cancel_left (List.append_cancel_left hlists)
    have := toString_injective (String.toList_inj.mp hnumber)
    omega

/-! ## The first free candidate -/

/-- The name is the first candidate for the base that is not taken. No more candidates stand before
it than there are taken names. -/
def IsFirstFree (taken : Names) (base name : String) : Prop :=
  ∃ n ≤ taken.length, name = candidate base n ∧ name ∉ taken ∧ ∀ m < n, candidate base m ∈ taken

/-- Among one more candidate than there are taken names one is free. -/
theorem exists_free (taken : Names) (base : String) :
    ∃ name, ((List.range (taken.length + 1)).map (candidate base)).find? (!taken.contains ·) =
      some name := by
  refine Option.isSome_iff_exists.mp (Option.isSome_iff_ne_none.mpr fun hnone => ?_)
  have hsub : (List.range (taken.length + 1)).map (candidate base) ⊆ taken := fun name hname => by
    simpa using List.find?_eq_none.mp hnone name hname
  have hnodup : ((List.range (taken.length + 1)).map (candidate base)).Nodup :=
    List.Pairwise.map _ (fun m n hne heq => hne (candidate_injective base heq)) List.nodup_range
  have hlen := (List.subperm_of_subset hnodup hsub).length_le
  rw [List.length_map, List.length_range] at hlen
  omega

/-- **A fresh name is the first free candidate.** -/
theorem isFirstFree_fresh (taken : Names) (base : String) :
    IsFirstFree taken base (fresh taken base) := by
  obtain ⟨name, hfind⟩ := exists_free taken base
  have hname : fresh taken base = name := by rw [fresh, hfind, Option.getD_some]
  rw [hname]
  obtain ⟨hfree, n, hn, hget, hbefore⟩ := List.find?_eq_some_iff_getElem.mp hfind
  rw [List.length_map, List.length_range] at hn
  refine ⟨n, Nat.lt_succ_iff.mp hn, ?_, by simpa using hfree, fun m hm => ?_⟩
  · simpa using hget.symm
  · simpa using hbefore m hm

/-- A fresh name is one of the candidates. -/
theorem exists_fresh (taken : Names) (base : String) :
    ∃ n, fresh taken base = candidate base n := by
  obtain ⟨n, -, hn, -⟩ := isFirstFree_fresh taken base
  exact ⟨n, hn⟩

/-- **A fresh name is not taken.** -/
theorem fresh_notMem (taken : Names) (base : String) : fresh taken base ∉ taken := by
  obtain ⟨-, -, -, hfree, -⟩ := isFirstFree_fresh taken base
  exact hfree

end ViewCompiler
