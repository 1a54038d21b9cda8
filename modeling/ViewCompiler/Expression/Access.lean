import ViewCompiler.Expression.Identifier
import ViewCompiler.Expression.Phrase

/-!
# Dotted data access

In template expressions `$user.profile.name` reads a path through nested data. `callAccesses`
writes each such access as a call of the accessor function and leaves everything else alone:
literals, plain variables, member access with an arrow, and static properties, whose variable
follows a double colon.
-/

namespace ViewCompiler.Expression

/-! ## Accessor calls -/

/-- The function that reads a path through nested data. -/
def accessorFunction : String := "data_get"

/-- The call that reads `path` through a variable, which is given with its sigil. -/
def accessorCall (sigiled path : String) : String :=
  accessorFunction ++ "(" ++ sigiled ++ ", '" ++ path ++ "')"

/-! ## Paths -/

/-- Reads segments of a path, each after a dot; gives them with their dots and the rest. A dot that
no segment follows is not part of the path. -/
def segments : List Char → List Char × List Char
  | [] => ([], [])
  | '.' :: c :: cs =>
    if isWordChar c then
      let found := segments (cs.dropWhile isWordChar)
      ('.' :: c :: (cs.takeWhile isWordChar ++ found.1), found.2)
    else ([], '.' :: c :: cs)
  | cs => ([], cs)
termination_by cs => cs.length
decreasing_by
  have := (List.dropWhile_suffix (l := cs) isWordChar).length_le
  simp only [List.length_cons]
  omega

/-- Reads a path: a dot and a segment, then further segments; gives the path without its first dot
and the rest. -/
def path? (cs : List Char) : Option (List Char × List Char) :=
  match segments cs with
  | ([], _) => none
  | (_ :: path, rest) => some (path, rest)

/-- The segments read and the rest make up the text. -/
theorem append_segments (cs : List Char) : (segments cs).1 ++ (segments cs).2 = cs := by
  fun_induction segments cs with
  | case1 => rfl
  | case2 c cs _ found ih =>
    simp only [List.cons_append, List.append_assoc, found, ih, List.takeWhile_append_dropWhile]
  | case3 => simp
  | case4 => rfl

/-- Segments that are not empty start with a dot. -/
theorem segments_eq_cons {cs : List Char} {c : Char} {path : List Char}
    (h : (segments cs).1 = c :: path) : c = '.' := by
  fun_cases segments cs with
  | case1 => simp [segments] at h
  | case2 _ _ hc =>
    rw [segments.eq_2, if_pos hc] at h
    exact (List.cons.inj h).1.symm
  | case3 _ _ hc => simp [segments, hc] at h
  | case4 => simp_all [segments]

/-- The dot, the path read and the rest make up the text. -/
theorem append_of_path? {cs path rest : List Char} (h : path? cs = some (path, rest)) :
    '.' :: (path ++ rest) = cs := by
  unfold path? at h
  split at h
  · simp at h
  · rename_i c path' rest' heq
    obtain ⟨rfl, rfl⟩ := Prod.mk.inj (Option.some.inj h)
    have h₁ := append_segments cs
    rw [heq] at h₁
    have h₂ : c = '.' := @segments_eq_cons cs c path' (by rw [heq])
    subst h₂
    simpa using h₁

/-! ## Dotted accesses -/

/-- A variable, without its sigil, and a path of segments joined by dots. -/
structure DottedPath where
  name : List Char
  path : List Char
deriving DecidableEq

/-- The access as it stands in a template. -/
def DottedPath.dotted (a : DottedPath) : List Char := '$' :: (a.name ++ '.' :: a.path)

/-- The access as a call of the accessor function. -/
def DottedPath.call (a : DottedPath) : List Char :=
  (accessorCall ("$" ++ String.ofList a.name) (String.ofList a.path)).toList

/-- Reads a dotted access, unless a double colon stands before it. -/
def dotted? (colons : Nat) (cs : List Char) : Option (DottedPath × List Char) :=
  if 2 ≤ colons then none
  else do
    let (name, cs) ← variableName? cs
    let (path, cs) ← path? cs
    return (⟨name, path⟩, cs)

/-- A dotted access and the rest make up the text. -/
theorem append_of_dotted? {colons : Nat} {cs : List Char} {a : DottedPath} {rest : List Char}
    (h : dotted? colons cs = some (a, rest)) : a.dotted ++ rest = cs := by
  unfold dotted? at h
  split at h
  · simp at h
  · obtain ⟨⟨name, cs₁⟩, h₁, h⟩ := Option.bind_eq_some_iff.mp h
    obtain ⟨⟨path, cs₂⟩, h₂, h⟩ := Option.bind_eq_some_iff.mp h
    obtain ⟨rfl, rfl⟩ := Prod.mk.inj (Option.some.inj h)
    have e₁ := append_of_variableName? h₁
    have e₂ := append_of_path? h₂
    subst e₂
    simpa [DottedPath.dotted] using e₁

/-- Dotted accesses as phrases. -/
def dottedAccess : Phrase DottedPath where
  read? := dotted?
  write := DottedPath.dotted
  append_of_read? := append_of_dotted?
  write_ne_nil _ := List.cons_ne_nil _ _

/-- The expression with every dotted access written as a call. -/
def callAccesses (expression : String) : String :=
  dottedAccess.respell DottedPath.call expression

end ViewCompiler.Expression
