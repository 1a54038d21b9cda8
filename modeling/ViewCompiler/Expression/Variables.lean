import ViewCompiler.Expression.Identifier
import ViewCompiler.Expression.Phrase

/-!
# Variables of an expression

The names of the variables that an expression mentions: those outside literals, unless a double
colon stands before them, and those inside a double-quoted literal, where a backslash takes the
next character away. Single-quoted literals mention nothing.
-/

namespace ViewCompiler.Expression

/-- Reads a variable, unless a double colon stands before it. -/
def mention? (colons : Nat) (cs : List Char) : Option (List Char × List Char) :=
  if 2 ≤ colons then none else variableName? cs

/-- Variables as phrases; the value is the name without its sigil. -/
def mention : Phrase (List Char) where
  read? := mention?
  write name := '$' :: name
  append_of_read? h := by
    unfold mention? at h
    split at h
    · simp at h
    · simpa using append_of_variableName? h
  write_ne_nil _ := List.cons_ne_nil _ _

/-- The rest of a text after an identifier is no longer than the text. -/
theorem length_le_of_identifier? {cs name rest : List Char}
    (h : identifier? cs = some (name, rest)) : rest.length ≤ cs.length := by
  rw [← append_of_identifier? h, List.length_append]
  omega

/-- The names of the variables inside a double-quoted literal. -/
def interpolated : List Char → List (List Char)
  | [] => []
  | ['\\'] => []
  | '\\' :: _ :: cs => interpolated cs
  | c :: cs =>
    if c == '$' then
      match _h : identifier? cs with
      | some (name, rest) => name :: interpolated rest
      | none => interpolated cs
    else interpolated cs
termination_by cs => cs.length
decreasing_by
  all_goals simp only [List.length_cons]
  · omega
  · exact Nat.lt_succ_of_le (length_le_of_identifier? (by assumption))
  · omega
  · omega

/-- The names that one piece of an expression mentions. -/
def Piece.names : Piece (List Char) → List (List Char)
  | .literal value => if value.quote == '"' then interpolated value.inside else []
  | .phrase name => [name]
  | .char _ => []

/-- The names of the variables that an expression mentions, in order, with repetitions. -/
def mentioned (expression : String) : List String :=
  ((mention.pieces expression.toList).flatMap Piece.names).map String.ofList

end ViewCompiler.Expression
