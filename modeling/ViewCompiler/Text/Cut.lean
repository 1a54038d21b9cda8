import ViewCompiler.Remainder

/-!
# Reading and cutting a text at a mark

Readers take something from the start of a text and give the rest. `mark?` takes a fixed text.
`cut? barrier mark cs` looks for the first place where `mark` stands in `cs`, giving up at a
character that is a barrier, and gives what is before and what is after the mark. What is before,
the mark and what is after make up the text (`append_of_cut?`).
-/

namespace ViewCompiler.Text

/-! ## A mark at the start -/

/-- Reads the text `mark`; gives the rest. -/
def mark? (mark : String) (cs : List Char) : Option (List Char) := remainder? mark.toList cs

/-- What `mark?` leaves makes up the text with the mark. -/
theorem append_of_mark? {mark : String} {cs rest : List Char} (h : mark? mark cs = some rest) :
    mark.toList ++ rest = cs := remainder?_eq_some_iff.mp h

/-- What `mark?` leaves is the end of the text. -/
theorem suffix_of_mark? {mark : String} {cs rest : List Char} (h : mark? mark cs = some rest) :
    rest <:+ cs := ⟨_, append_of_mark? h⟩

/-- A shorter end of a text. -/
def Shorter (rest cs : List Char) : Prop := rest <:+ cs ∧ rest.length < cs.length

/-- The end of a shorter end is a shorter end. -/
theorem Shorter.of_suffix {a b c : List Char} (hab : a <:+ b) (hbc : Shorter b c) : Shorter a c :=
  ⟨hab.trans hbc.1, Nat.lt_of_le_of_lt hab.length_le hbc.2⟩

/-- What `mark?` leaves is a shorter end of the text, if the mark is not empty. -/
theorem shorter_of_mark? {mark : String} {cs rest : List Char} (h : mark? mark cs = some rest)
    (hmark : mark.toList ≠ []) : Shorter rest cs := by
  have := List.length_pos_iff.mpr hmark
  refine ⟨suffix_of_mark? h, ?_⟩
  rw [← append_of_mark? h, List.length_append]
  omega

/-! ## The first mark -/

/-- The text before and after the first place where the mark stands, if no barrier comes first. -/
def cut? (barrier : Char → Bool) (mark : List Char) : List Char → Option (List Char × List Char)
  | [] => (remainder? mark []).map fun after => ([], after)
  | c :: cs =>
    match remainder? mark (c :: cs) with
    | some after => some ([], after)
    | none =>
      if barrier c then none
      else (cut? barrier mark cs).map fun found => (c :: found.1, found.2)

/-- Cuts at the mark wherever it stands. -/
def cutAt? (mark : List Char) : List Char → Option (List Char × List Char) :=
  cut? (fun _ => false) mark

/-- Cuts at the mark if it stands before the end of the line. -/
def cutInLine? (mark : List Char) : List Char → Option (List Char × List Char) :=
  cut? (· == '\n') mark

/-- The two parts of a cut and the mark between them make up the text. -/
theorem append_of_cut? {barrier : Char → Bool} {mark : List Char} :
    ∀ {cs before after : List Char}, cut? barrier mark cs = some (before, after) →
      before ++ mark ++ after = cs
  | [], _, _, h => by
    obtain ⟨_, h', heq⟩ := Option.map_eq_some_iff.mp h
    obtain ⟨rfl, rfl⟩ := Prod.mk.inj heq
    simpa using remainder?_eq_some_iff.mp h'
  | c :: cs, _, _, h => by
    simp only [cut?] at h
    split at h
    · rename_i _ h'
      obtain ⟨rfl, rfl⟩ := Prod.mk.inj (Option.some.inj h)
      simpa using remainder?_eq_some_iff.mp h'
    · split at h
      · simp at h
      · obtain ⟨_, h', heq⟩ := Option.map_eq_some_iff.mp h
        obtain ⟨rfl, rfl⟩ := Prod.mk.inj heq
        simpa using append_of_cut? h'

/-- What is after a cut is the end of the text. -/
theorem suffix_of_cut? {barrier : Char → Bool} {mark cs before after : List Char}
    (h : cut? barrier mark cs = some (before, after)) : after <:+ cs := ⟨_, append_of_cut? h⟩

/-! ## What a reader took -/

/-- The part of the text before the end that a reader left. -/
def taken (cs rest : List Char) : List Char := cs.take (cs.length - rest.length)

/-- The part taken and the part left make up the text. -/
theorem taken_append {cs rest : List Char} (h : rest <:+ cs) : taken cs rest ++ rest = cs := by
  obtain ⟨before, rfl⟩ := h
  simp [taken]

end ViewCompiler.Text
