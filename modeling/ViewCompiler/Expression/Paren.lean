import ViewCompiler.Expression.Literal

/-!
# The closing parenthesis of a group

`closingParen? source start` finds the parenthesis that balances the one at `start`. Parentheses
inside quotes do not count. Unlike a literal of an expression, a quote that is never closed hides
everything after it, so a group with such a quote stays open.
-/

namespace ViewCompiler.Expression

/-- How far the text is to the first parenthesis that brings the depth to zero, where `quote` is
the quote the text starts inside of, if any, and `depth` counts the groups it starts inside of. -/
def balance? : (quote : Option Char) → (depth : Int) → List Char → Option Nat
  | _, _, [] => none
  | some _, _, ['\\'] => none
  | some quote, depth, '\\' :: _ :: cs => (balance? (some quote) depth cs).map (· + 2)
  | some quote, depth, c :: cs =>
    (balance? (if c == quote then none else some quote) depth cs).map (· + 1)
  | none, depth, c :: cs =>
    if isQuote c then (balance? (some c) depth cs).map (· + 1)
    else if c == '(' then (balance? none (depth + 1) cs).map (· + 1)
    else if c == ')' then
      if depth == 1 then some 0 else (balance? none (depth - 1) cs).map (· + 1)
    else (balance? none depth cs).map (· + 1)

/-- The index of the parenthesis that closes the group opened at index `start`; quoting starts
afresh at `start`. -/
def closingParen? (source : List Char) (start : Nat) : Option Nat :=
  (balance? none 0 (source.drop start)).map (· + start)

/-- The balancing parenthesis lies inside the text. -/
theorem lt_length_of_balance? {quote : Option Char} {depth : Int} {cs : List Char} {i : Nat}
    (h : balance? quote depth cs = some i) : i < cs.length := by
  fun_induction balance? quote depth cs generalizing i with
  | case1 | case2 => simp at h
  | case7 => simp [← Option.some.inj h]
  | case3 _ _ _ _ ih | case4 _ _ _ _ _ _ ih | case5 _ _ _ _ ih | case6 _ _ _ _ _ ih
  | case8 _ _ _ _ _ _ _ ih | case9 _ _ _ _ _ _ ih =>
    obtain ⟨j, hj, rfl⟩ := Option.map_eq_some_iff.mp h
    have := ih hj
    simp only [List.length_cons]
    omega

end ViewCompiler.Expression
