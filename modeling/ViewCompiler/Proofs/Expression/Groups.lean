import ViewCompiler.Proofs.Expression.Scanning

/-!
# What closes a group

The parenthesis that closes a group is found by scanning up to it, and the text up to it can go on
with any other text (`balance?_take`). `IsGroup inside` says that the parenthesis after `inside`
closes the one before it; it does if it is the first one that brings the depth of the scan back to
zero (`isGroup_iff_returns`).
-/

namespace ViewCompiler.Expression

/-- The parenthesis that closes the last open one is found where it stands. -/
theorem balance?_close (rest : List Char) : balance? none 1 (')' :: rest) = some 0 := by
  simp [balance?, isQuote]

/-- Up to the parenthesis that closes a group, the text stays inside the group whatever stands
behind it. -/
theorem balance?_take {cs : List Char} {i : Nat} (h : balance? none 1 cs = some i) :
    (∃ rest, cs = cs.take i ++ ')' :: rest) ∧
      ∀ other, balance? none 1 (cs.take i ++ other) = (balance? none 1 other).map (· + i) := by
  simp only [Scan.balance?_eq_find?] at h ⊢
  exact Scan.find?_take h

/-- The parenthesis that closes a group behind any text is counted from the group. -/
theorem closingParen?_append (front rest : List Char) :
    closingParen? (front ++ '(' :: rest) front.length =
      (balance? none 1 rest).map (· + 1 + front.length) := by
  have hopen : isQuote '(' = false := by decide
  rw [closingParen?, List.drop_left, balance?, if_neg (by rw [hopen]; decide),
    if_pos (by decide), Option.map_map]
  rfl

/-- The parenthesis after the text closes the one before it. -/
def IsGroup (inside : List Char) : Prop :=
  closingParen? ('(' :: (inside ++ [')'])) 0 = some (inside.length + 1)

instance (inside : List Char) : Decidable (IsGroup inside) := inferInstanceAs (Decidable (_ = _))

/-- The first parenthesis of a group is one more group to close. -/
theorem isGroup_iff {inside : List Char} :
    IsGroup inside ↔ balance? none 1 (inside ++ [')']) = some inside.length := by
  have hparen : closingParen? ('(' :: (inside ++ [')'])) 0 =
      (balance? none 1 (inside ++ [')'])).map (· + 1) := closingParen?_append [] _
  rw [IsGroup, hparen, Option.map_eq_some_iff]
  constructor
  · rintro ⟨i, hi, heq⟩
    rw [hi, Nat.succ.inj heq]
  · exact fun h => ⟨_, h, rfl⟩

/-- The inside of a group in front of any text. -/
theorem IsGroup.balance?_append {inside : List Char} (h : IsGroup inside) (other : List Char) :
    Expression.balance? none 1 (inside ++ other) =
      (Expression.balance? none 1 other).map (· + inside.length) := by
  have := (balance?_take (isGroup_iff.mp h)).2 other
  rwa [List.take_left] at this

/-- A group in front of any text is closed after its inside. -/
theorem IsGroup.balance? {inside : List Char} (h : IsGroup inside) (rest : List Char) :
    balance? none 1 (inside ++ ')' :: rest) = some inside.length := by
  rw [h.balance?_append, balance?_close, Option.map_some, Nat.zero_add]

/-- Text without quotes and parentheses closes nothing. -/
theorem balance?_plain {depth : Int} {plain : List Char} (h : ∀ c ∈ plain, isPlainChar c = true)
    (other : List Char) :
    Expression.balance? none depth (plain ++ other) =
      (Expression.balance? none depth other).map (· + plain.length) := by
  induction plain with
  | nil => exact Option.map_id'.symm
  | cons c plain ih =>
    obtain ⟨hc, hplain⟩ := List.forall_mem_cons.mp h
    simp only [isPlainChar, Bool.and_eq_true, Bool.not_eq_true', bne_iff_ne] at hc
    rw [List.cons_append, Expression.balance?, if_neg (by simp [hc.1.1]),
      if_neg (by simp [hc.1.2]),
      if_neg (by simp [hc.2]), ih hplain, Option.map_map]
    rfl

/-- A group can go on with text without quotes and parentheses. -/
theorem IsGroup.append_plain {inside plain : List Char} (h : IsGroup inside)
    (hplain : ∀ c ∈ plain, isPlainChar c = true) : IsGroup (inside ++ plain) := by
  rw [isGroup_iff, List.append_assoc, h.balance?_append, balance?_plain hplain, balance?_close,
    List.length_append, Option.map_some, Option.map_some, Nat.zero_add, Nat.add_comm]

/-- A group is a text that the parenthesis behind it closes first. -/
theorem Scan.isGroup_iff_returns {inside : List Char} :
    IsGroup inside ↔ Returns ⟨.outside, 1⟩ (inside ++ [')']) := by
  have hlength : (inside ++ [')']).length = inside.length + 1 := by simp
  rw [isGroup_iff, balance?_eq_find?, Option.elim_none, find?_eq_some_iff_returns (by decide),
    ← hlength, List.take_length]
  simp

/-- What is found up to the closing parenthesis is a group. -/
theorem isGroup_take {cs : List Char} {i : Nat} (h : Expression.balance? none 1 cs = some i) :
    IsGroup (cs.take i) ∧ cs.take i ++ ')' :: cs.drop (i + 1) = cs := by
  obtain ⟨⟨rest, hrest⟩, hother⟩ := balance?_take h
  have hlen := lt_length_of_balance? h
  have htake : (cs.take i).length = i := List.length_take_of_le (Nat.le_of_lt hlen)
  refine ⟨isGroup_iff.mpr ?_, ?_⟩
  · rw [htake, hother, balance?_close, Option.map_some, Nat.zero_add]
  · have hdrop : cs.drop i = ')' :: rest :=
      List.append_cancel_left ((List.take_append_drop i cs).trans hrest)
    rw [← List.tail_drop, hdrop]
    exact hrest.symm

end ViewCompiler.Expression
