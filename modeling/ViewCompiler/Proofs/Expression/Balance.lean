import Mathlib.Order.Bounds.Basic
import Mathlib.Order.Interval.Finset.Nat
import ViewCompiler.Proofs.Expression.Scanning

/-!
# The least balancing parenthesis

Which parenthesis closes a group is told by counting: it is the first one outside of literals up to
which as many parentheses are opened as closed (`ClosesAt`). Where the search starts, what opens
first and whether literals end do not matter, so the search is characterised from every place of
every text (`closingParen?_isLeast`), and text behind it changes nothing that was found.
-/

namespace ViewCompiler.Expression

/-! ## Counting -/

/-- The part of a text from one place up to another. -/
def between (source : List Char) (start stop : Nat) : List Char := (source.take stop).drop start

/-- The character stands at a place outside of literals, where quoting starts afresh at `start`. -/
def IsUnquoted (source : List Char) (start : Nat) (c : Char) (i : Nat) : Prop :=
  source[i]? = some c ∧ (between source start i).foldl Quoting.step .outside = .outside

instance (source : List Char) (start : Nat) (c : Char) :
    DecidablePred (IsUnquoted source start c) :=
  fun _ => inferInstanceAs (Decidable (_ ∧ _))

/-- How often the character stands outside of literals at the places from `start` up to `stop`,
this one excluded. -/
def unquotedCount (source : List Char) (start : Nat) (c : Char) (stop : Nat) : Nat :=
  ((Finset.Ico start stop).filter (IsUnquoted source start c)).card

/-- At the place a parenthesis closes outside of literals, and from `start` on up to it, both
included, as many parentheses are opened as closed. -/
structure ClosesAt (source : List Char) (start i : Nat) : Prop where
  le : start ≤ i
  isUnquoted : IsUnquoted source start ')' i
  balanced : unquotedCount source start '(' (i + 1) = unquotedCount source start ')' (i + 1)

instance (source : List Char) (start : Nat) : DecidablePred (ClosesAt source start) := fun i =>
  decidable_of_iff (start ≤ i ∧ IsUnquoted source start ')' i ∧
      unquotedCount source start '(' (i + 1) = unquotedCount source start ')' (i + 1))
    ⟨fun ⟨hle, hunquoted, hbalanced⟩ => ⟨hle, hunquoted, hbalanced⟩,
      fun ⟨hle, hunquoted, hbalanced⟩ => ⟨hle, hunquoted, hbalanced⟩⟩

/-- A stretch that ends one place later has one more character. -/
theorem between_succ {source : List Char} {start i : Nat} {c : Char} (hle : start ≤ i)
    (hc : source[i]? = some c) :
    between source start (i + 1) = between source start i ++ [c] := by
  obtain ⟨hi, rfl⟩ := List.getElem?_eq_some_iff.mp hc
  rw [between, between, List.take_succ_eq_append_getElem hi, List.drop_append_of_le_length]
  rwa [List.length_take_of_le (Nat.le_of_lt hi)]

/-- A stretch in a text is the same in a longer text. -/
theorem between_append {source : List Char} {start i : Nat} (h : i ≤ source.length)
    (more : List Char) : between (source ++ more) start i = between source start i := by
  rw [between, between, List.take_append_of_le_length h]

/-- One place more is counted if the character stands there. -/
theorem unquotedCount_succ {source : List Char} {start i : Nat} (hle : start ≤ i) (c : Char) :
    unquotedCount source start c (i + 1) =
      unquotedCount source start c i + if IsUnquoted source start c i then 1 else 0 := by
  rw [unquotedCount, unquotedCount, Nat.Ico_succ_right_eq_insert_Ico hle, Finset.filter_insert]
  split
  · rw [Finset.card_insert_of_notMem (by simp)]
  · rw [Nat.add_zero]

namespace Scan

/-- Whether a literal is open is told by the characters alone, whatever the depth. -/
theorem quoting_run (s : Scan) (cs : List Char) :
    (s.run cs).quoting = cs.foldl Quoting.step s.quoting := by
  induction cs generalizing s with
  | nil => rfl
  | cons c cs ih => exact ih (s.step c)

/-- **The depth of a scan is the number of parentheses opened less that of those closed.** -/
theorem depth_run_between {source : List Char} {start i : Nat} (hle : start ≤ i)
    (hi : i ≤ source.length) :
    (Scan.start.run (between source start i)).depth =
      unquotedCount source start '(' i - unquotedCount source start ')' i := by
  induction i, hle using Nat.le_induction with
  | base => simp [between, unquotedCount, Scan.start]
  | succ i hle ih =>
    have hc : source[i]? = some source[i] := List.getElem?_eq_getElem hi
    have hdepth := ih (Nat.le_of_lt hi)
    rw [between_succ hle hc, run_append, run_cons, run_nil, step, unquotedCount_succ hle,
      unquotedCount_succ hle]
    simp only [IsUnquoted, hc, Option.some.injEq, quoting_run, Scan.start, groupsOpened]
      at hdepth ⊢
    rw [hdepth]
    by_cases hout : (between source start i).foldl Quoting.step .outside = .outside
    · by_cases hopen : source[i] = '('
      · simp [hout, hopen]
        omega
      · by_cases hclose : source[i] = ')' <;> simp [hout, hopen, hclose]
        omega
    · simp [hout]

/-! ## The least place -/

/-- At the place a parenthesis closes the one group that is open there. -/
def Reaches (s : Scan) (cs : List Char) (i : Nat) : Prop :=
  cs[i]? = some ')' ∧ s.run (cs.take i) = ⟨.outside, 1⟩

/-- The closing parenthesis comes at once exactly if it is the first character and one is open. -/
theorem reaches_zero {s : Scan} {c : Char} {cs : List Char} :
    s.Reaches (c :: cs) 0 ↔ c = ')' ∧ s = ⟨.outside, 1⟩ := by
  simp [Reaches]

/-- The closing parenthesis comes later exactly if it does so from the scan after one step. -/
theorem reaches_succ {s : Scan} {c : Char} {cs : List Char} {i : Nat} :
    s.Reaches (c :: cs) (i + 1) ↔ (s.step c).Reaches cs i := by
  simp [Reaches]

/-- **The search ends at the least place that closes the one group open there**, from every
scan. -/
theorem find?_eq_some_iff_isLeast (s : Scan) (cs : List Char) (i : Nat) :
    s.find? cs = some i ↔ IsLeast {j | s.Reaches cs j} i := by
  induction cs generalizing s i with
  | nil => exact iff_of_false (by simp [find?]) fun hleast => by simpa [Reaches] using hleast.1
  | cons c cs ih =>
    by_cases hlast : c = ')' ∧ s = ⟨.outside, 1⟩
    · have hleast : IsLeast {j | s.Reaches (c :: cs) j} 0 :=
        ⟨reaches_zero.mpr hlast, fun j _ => Nat.zero_le j⟩
      rw [find?, if_pos hlast, Option.some.injEq]
      exact ⟨fun h => h ▸ hleast, fun h => hleast.unique h⟩
    · have hzero : ¬ s.Reaches (c :: cs) 0 := fun h => hlast (reaches_zero.mp h)
      rw [find?_cons hlast]
      cases i with
      | zero =>
        refine iff_of_false ?_ fun hleast => hzero hleast.1
        cases (s.step c).find? cs <;> simp
      | succ i =>
        rw [map_succ_eq_some_succ, ih]
        constructor
        · rintro ⟨hmem, hlower⟩
          refine ⟨reaches_succ.mpr hmem, fun j hj => ?_⟩
          cases j with
          | zero => exact absurd hj hzero
          | succ j => exact Nat.succ_le_succ (hlower (reaches_succ.mp hj))
        · rintro ⟨hmem, hlower⟩
          exact ⟨reaches_succ.mp hmem,
            fun j hj => Nat.le_of_succ_le_succ (hlower (reaches_succ.mpr hj))⟩

end Scan

/-! ## Places of a text -/

/-- The place in a text is one behind the start of the search. -/
theorem closesAt_iff {source : List Char} {start i : Nat} :
    ClosesAt source start i ↔ start ≤ i ∧ Scan.start.Reaches (source.drop start) (i - start) := by
  have hparts (hle : start ≤ i) : (source.drop start)[i - start]? = source[i]? ∧
      (source.drop start).take (i - start) = between source start i := by
    rw [List.getElem?_drop, Nat.add_sub_cancel' hle, between, List.drop_take]
    exact ⟨rfl, rfl⟩
  -- The parenthesis itself is one closed and none opened.
  have hcounts (hle : start ≤ i) (h : IsUnquoted source start ')' i) :
      unquotedCount source start '(' (i + 1) = unquotedCount source start ')' (i + 1) ↔
        (Scan.start.run (between source start i)).depth = 1 := by
    have hi : i ≤ source.length := Nat.le_of_lt (List.getElem?_eq_some_iff.mp h.1).1
    have hnot : ¬ IsUnquoted source start '(' i := by
      rintro ⟨hopen, -⟩
      exact absurd (hopen.symm.trans h.1) (by decide)
    rw [unquotedCount_succ hle, unquotedCount_succ hle, if_pos h, if_neg hnot,
      Scan.depth_run_between hle hi]
    omega
  constructor
  · rintro ⟨hle, hunquoted, hbalanced⟩
    obtain ⟨hget, htake⟩ := hparts hle
    refine ⟨hle, hget.trans hunquoted.1, ?_⟩
    have hdepth := (hcounts hle hunquoted).mp hbalanced
    have hquoting := (Scan.quoting_run Scan.start (between source start i)).trans hunquoted.2
    rw [htake]
    exact congrArg₂ Scan.mk hquoting hdepth
  · rintro ⟨hle, hchar, hrun⟩
    obtain ⟨hget, htake⟩ := hparts hle
    rw [htake] at hrun
    have hunquoted : IsUnquoted source start ')' i :=
      ⟨hget.symm.trans hchar, (Scan.quoting_run Scan.start _).symm.trans (congrArg _ hrun)⟩
    exact ⟨hle, hunquoted, (hcounts hle hunquoted).mpr (congrArg Scan.depth hrun)⟩

/-- **What is found is the least place that balances.** -/
theorem closingParen?_eq_some_iff (source : List Char) (start i : Nat) :
    closingParen? source start = some i ↔ IsLeast {j | ClosesAt source start j} i := by
  rw [closingParen?, Scan.balance?_eq_find?, Option.map_eq_some_iff]
  constructor
  · rintro ⟨j, hj, rfl⟩
    obtain ⟨hmem, hlower⟩ := (Scan.find?_eq_some_iff_isLeast .start _ j).mp hj
    refine ⟨closesAt_iff.mpr ⟨Nat.le_add_left start j, ?_⟩, fun k hk => ?_⟩
    · rw [Nat.add_sub_cancel]
      exact hmem
    · obtain ⟨hle, hreaches⟩ := closesAt_iff.mp hk
      have := hlower hreaches
      omega
  · rintro ⟨hmem, hlower⟩
    obtain ⟨hle, hreaches⟩ := closesAt_iff.mp hmem
    refine ⟨i - start, (Scan.find?_eq_some_iff_isLeast .start _ _).mpr
      ⟨hreaches, fun k hk => ?_⟩, Nat.sub_add_cancel hle⟩
    have hclosesAt : ClosesAt source start (k + start) :=
      closesAt_iff.mpr ⟨Nat.le_add_left start k, by rwa [Nat.add_sub_cancel]⟩
    have := hlower hclosesAt
    omega

/-- Nothing is found only where nothing balances. -/
theorem closingParen?_eq_none_iff (source : List Char) (start : Nat) :
    closingParen? source start = none ↔ ∀ i, ¬ ClosesAt source start i := by
  constructor
  · intro h i hi
    obtain ⟨least, hleast⟩ : ∃ least, IsLeast {j | ClosesAt source start j} least :=
      ⟨_, Nat.isLeast_find ⟨i, hi⟩⟩
    rw [(closingParen?_eq_some_iff source start least).mpr hleast] at h
    cases h
  · intro h
    cases hfound : closingParen? source start with
    | none => rfl
    | some i => exact absurd ((closingParen?_eq_some_iff source start i).mp hfound).1 (h i)

/-! ## Text behind -/

/-- What stands behind a place does not matter for it. -/
theorem closesAt_append {source : List Char} {start i : Nat} (hi : i < source.length)
    (more : List Char) : ClosesAt (source ++ more) start i ↔ ClosesAt source start i := by
  have hunquoted (c : Char) {j : Nat} (hj : j < i + 1) :
      IsUnquoted (source ++ more) start c j ↔ IsUnquoted source start c j := by
    rw [IsUnquoted, IsUnquoted, List.getElem?_append_left (by omega),
      between_append (by omega)]
  have hcount (c : Char) : unquotedCount (source ++ more) start c (i + 1) =
      unquotedCount source start c (i + 1) := by
    rw [unquotedCount, unquotedCount]
    congr 1
    exact Finset.filter_congr fun j hj => hunquoted c (Finset.mem_Ico.mp hj).2
  constructor
  · rintro ⟨hle, hchar, hbalanced⟩
    rw [hcount, hcount] at hbalanced
    exact ⟨hle, (hunquoted _ (Nat.lt_succ_self i)).mp hchar, hbalanced⟩
  · rintro ⟨hle, hchar, hbalanced⟩
    rw [← hcount, ← hcount] at hbalanced
    exact ⟨hle, (hunquoted _ (Nat.lt_succ_self i)).mpr hchar, hbalanced⟩

/-- A closing parenthesis is in the text. -/
theorem ClosesAt.lt_length {source : List Char} {start i : Nat} (h : ClosesAt source start i) :
    i < source.length := (List.getElem?_eq_some_iff.mp h.isUnquoted.1).1

/-- **The parenthesis found from a place is the least one from there on, outside of literals, up to
which as many parentheses are opened as closed**, and none is found only if there is none. More
text behind does not change what is found, and where nothing is found it only adds places behind
the old text. -/
theorem closingParen?_isLeast (source : List Char) (start : Nat) :
    (∀ i, closingParen? source start = some i ↔ IsLeast {j | ClosesAt source start j} i) ∧
      (closingParen? source start = none ↔ ∀ i, ¬ ClosesAt source start i) ∧
      (∀ more i, closingParen? source start = some i →
        closingParen? (source ++ more) start = some i) ∧
      ∀ more i, closingParen? source start = none →
        closingParen? (source ++ more) start = some i → source.length ≤ i := by
  refine ⟨closingParen?_eq_some_iff source start, closingParen?_eq_none_iff source start,
    fun more i h => ?_, fun more i hnone h => ?_⟩
  · obtain ⟨hmem, hlower⟩ := (closingParen?_eq_some_iff source start i).mp h
    refine (closingParen?_eq_some_iff _ start i).mpr
      ⟨(closesAt_append hmem.lt_length more).mpr hmem, fun j hj => ?_⟩
    -- A place before the one found would be in the old text.
    by_contra hlt
    have hold : j < source.length := Nat.lt_trans (Nat.lt_of_not_le hlt) hmem.lt_length
    exact hlt (hlower ((closesAt_append hold more).mp hj))
  · obtain ⟨hmem, -⟩ := (closingParen?_eq_some_iff _ start i).mp h
    by_contra hlt
    exact (closingParen?_eq_none_iff source start).mp hnone i
      ((closesAt_append (Nat.lt_of_not_le hlt) more).mp hmem)

/-- A search that starts at a closing parenthesis needs one more that is opened. -/
theorem closingParen?_isLeast_unopened :
    IsLeast {j | ClosesAt ")(a')'(b)c)".toList 0 j} 8 ∧
      closingParen? (")(a')'(b)c)".toList ++ ")".toList) 0 = some 8 := by
  have hfound : closingParen? ")(a')'(b)c)".toList 0 = some 8 := by decide
  obtain ⟨hleast, -, happend, -⟩ := closingParen?_isLeast ")(a')'(b)c)".toList 0
  exact ⟨(hleast 8).mp hfound, happend ")".toList 8 hfound⟩

end ViewCompiler.Expression
