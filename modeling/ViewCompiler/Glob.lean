import ViewCompiler.Text.Cut

/-!
# Name patterns

A pattern for the name of a file: `*` stands for any characters, `?` for one character and a set in
brackets for one of its characters. Every other character stands for itself, and so does a bracket
that is never closed. A text without these three signs reads as literals (`Glob.ofText_eq_map`),
which accept that text only, and after a star the texts that end in it
(`Glob.accepts_many_map_literal`).
-/

namespace ViewCompiler

open Text (cutAt? append_of_cut?)

/-! ## Sets of characters -/

/-- A member of a set: a character, or the characters between two. -/
inductive SetMember where
  | single (c : Char)
  | span (first last : Char)

/-- The character is the member or between its ends. -/
def SetMember.has (c : Char) : SetMember → Bool
  | .single d => c == d
  | .span first last => first ≤ c && c ≤ last

/-- The member is a span whose ends are in the wrong order. -/
def SetMember.isVoid : SetMember → Bool
  | .single _ => false
  | .span first last => last < first

/-- Reads the members of a set. A hyphen makes a span of the characters around it, but not at the
start, at the end, or directly after a span. -/
def members : List Char → List SetMember
  | first :: '-' :: last :: cs => .span first last :: members cs
  | c :: cs => .single c :: members cs
  | [] => []

/-- A set of characters: the members, or everything but them. -/
structure CharSet where
  negated : Bool
  members : List SetMember

/-- The character is in the set. -/
def CharSet.has (set : CharSet) (c : Char) : Bool :=
  set.members.any (SetMember.has c) != set.negated

/-- The set that the text between brackets describes. Void spans are left out. An exclamation mark
at the start negates the set, also one that void spans stood in front of; if a hyphen followed that
one, the hyphen and the end of the span are members. -/
def CharSet.ofText : List Char → CharSet
  | '!' :: cs => ⟨true, (ViewCompiler.members cs).filter (!·.isVoid)⟩
  | cs =>
    match (ViewCompiler.members cs).filter (!·.isVoid) with
    | .single '!' :: rest => ⟨true, rest⟩
    | .span '!' last :: rest => ⟨true, .single '-' :: .single last :: rest⟩
    | kept => ⟨false, kept⟩

/-- Cuts the text of a set and what is after it from a text after an opening bracket. A closing
bracket at the start of the set, or after the mark that negates it, is a member. -/
def bracketed? (cs : List Char) : Option (List Char × List Char) :=
  let first :=
    match cs with
    | '!' :: ']' :: _ => 2
    | '!' :: _ => 1
    | ']' :: _ => 1
    | _ => 0
  (cutAt? [']'] (cs.drop first)).map fun found => (cs.take first ++ found.1, found.2)

/-- What is after a set is shorter than the text it was cut from. -/
theorem length_lt_of_bracketed? {cs body rest : List Char}
    (h : bracketed? cs = some (body, rest)) : rest.length < cs.length := by
  obtain ⟨⟨before, after⟩, hcut, heq⟩ := Option.map_eq_some_iff.mp h
  obtain ⟨-, hrest⟩ := Prod.mk.inj heq
  simp only at hrest
  subst hrest
  have := congrArg List.length (append_of_cut? hcut)
  simp only [List.length_append, List.length_cons, List.length_nil, List.length_drop] at this
  omega

/-! ## Patterns -/

/-- A sign of a pattern. -/
inductive GlobSign where
  | literal (c : Char)
  | one
  | many
  | set (set : CharSet)

/-- A pattern for names. -/
abbrev Glob := List GlobSign

/-- Reads a pattern. -/
def Glob.ofText : List Char → Glob
  | [] => []
  | '*' :: cs => .many :: ofText cs
  | '?' :: cs => .one :: ofText cs
  | '[' :: cs =>
    match h : bracketed? cs with
    | some (body, rest) =>
      have := length_lt_of_bracketed? h
      .set (.ofText body) :: ofText rest
    | none => .literal '[' :: ofText cs
  | c :: cs => .literal c :: ofText cs
termination_by cs => cs.length

/-- The whole text is as the pattern says. -/
def Glob.accepts : Glob → List Char → Bool
  | [], cs => cs.isEmpty
  | .many :: signs, cs => (List.range (cs.length + 1)).any fun n => accepts signs (cs.drop n)
  | _ :: _, [] => false
  | .literal d :: signs, c :: cs => c == d && accepts signs cs
  | .one :: signs, _ :: cs => accepts signs cs
  | .set set :: signs, c :: cs => set.has c && accepts signs cs

/-! ## Patterns without signs -/

/-- A character that stands for itself wherever it is. -/
def isPlain (c : Char) : Bool := c != '*' && c != '?' && c != '['

/-- A text of plain characters is a pattern of literals. -/
theorem Glob.ofText_eq_map {cs : List Char} (h : ∀ c ∈ cs, isPlain c = true) :
    Glob.ofText cs = cs.map .literal := by
  induction cs with
  | nil => simp [ofText]
  | cons c cs ih =>
    simp only [List.mem_cons, forall_eq_or_imp] at h
    have hc := h.1
    simp only [isPlain, Bool.and_eq_true, bne_iff_ne, ne_eq] at hc
    rw [ofText.eq_5 _ _ hc.1.1 hc.1.2 hc.2, ih h.2, List.map_cons]

/-- A pattern of literals accepts their text only. -/
theorem Glob.accepts_map_literal (ds cs : List Char) :
    Glob.accepts (ds.map .literal) cs = decide (cs = ds) := by
  induction ds generalizing cs with
  | nil => cases cs <;> simp [Glob.accepts]
  | cons d ds ih => cases cs <;> simp [Glob.accepts, ih, Bool.beq_eq_decide_eq]

/-- A star before a pattern of literals accepts the texts that end in them. -/
theorem Glob.accepts_many_map_literal (ds cs : List Char) :
    Glob.accepts (.many :: ds.map .literal) cs = true ↔ ds <:+ cs := by
  simp only [Glob.accepts, List.any_eq_true, List.mem_range, accepts_map_literal,
    decide_eq_true_eq]
  constructor
  · rintro ⟨n, -, h⟩
    exact h ▸ List.drop_suffix n cs
  · rintro ⟨before, rfl⟩
    have hlt : before.length < (before ++ ds).length + 1 := by
      rw [List.length_append]
      omega
    exact ⟨before.length, hlt, by simp⟩

end ViewCompiler
