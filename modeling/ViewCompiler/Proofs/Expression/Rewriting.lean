import Mathlib.Data.List.Forall2
import ViewCompiler.Proofs.Expression.Accesses
import ViewCompiler.Proofs.Expression.Reference

/-!
# What is rewritten in an expression

The accesses of an expression, told without a reader: an access is a variable and a path of
segments that is as long as possible, and it does not stand directly behind a double colon
(`StartsAccess`). An expression has one cut into literals, accesses and other characters. With its
accesses as calls it is the same cut with each access written as a call and everything else as it
was (`exists_accessCut`).
-/

namespace ViewCompiler.Expression

/-! ## Paths -/

/-- A segment of a path: ASCII letters, digits and underscores, at least one. -/
def IsSegment (cs : List Char) : Prop := cs ≠ [] ∧ ∀ c ∈ cs, isWordChar c = true

/-- Segments with a dot between each two. -/
inductive IsPath : List Char → Prop where
  | segment {s : List Char} (hs : IsSegment s) : IsPath s
  | dot {s path : List Char} (hs : IsSegment s) (hpath : IsPath path) : IsPath (s ++ '.' :: path)

/-- A path in front of the text does not go on with it. -/
def EndsPath (rest : List Char) : Prop :=
  StopsAt isWordChar rest ∧ ∀ cs, rest = '.' :: cs → StopsAt isWordChar cs

/-- A character of a word and more of them are a segment. -/
theorem isSegment_cons {c : Char} {cs : List Char} (hc : isWordChar c = true)
    (hcs : ∀ d ∈ cs, isWordChar d = true) : IsSegment (c :: cs) :=
  ⟨List.cons_ne_nil c cs, List.forall_mem_cons.mpr ⟨hc, hcs⟩⟩

/-- A path can go on with characters of its last segment. -/
theorem IsPath.append_word {path word : List Char} (h : IsPath path)
    (hword : ∀ c ∈ word, isWordChar c = true) : IsPath (path ++ word) := by
  induction h with
  | segment hs =>
    exact .segment
      ⟨List.append_ne_nil_of_left_ne_nil hs.1 _, List.forall_mem_append.mpr ⟨hs.2, hword⟩⟩
  | dot hs _ ih =>
    rw [List.append_assoc, List.cons_append]
    exact .dot hs ih

/-- A path can go on with a dot and a path. -/
theorem IsPath.append_dot {path path' : List Char} (h : IsPath path) (h' : IsPath path') :
    IsPath (path ++ '.' :: path') := by
  induction h with
  | segment hs => exact .dot hs h'
  | dot hs _ ih =>
    rw [List.append_assoc, List.cons_append]
    exact .dot hs ih

/-- Segments are read from a dot and the characters of the first one on. -/
theorem segments_append {s : List Char} (hs : IsSegment s) {cs : List Char}
    (hcs : StopsAt isWordChar cs) :
    segments ('.' :: (s ++ cs)) = ('.' :: (s ++ (segments cs).1), (segments cs).2) := by
  obtain ⟨hne, hword⟩ := hs
  obtain ⟨c, word, rfl⟩ := List.exists_cons_of_ne_nil hne
  obtain ⟨hc, hword⟩ := List.forall_mem_cons.mp hword
  rw [List.cons_append, segments, if_pos hc, takeWhile_append_stop hword hcs,
    dropWhile_append_stop hword hcs, List.cons_append]

/-- No segments are read from a text that ends a path. -/
theorem segments_of_endsPath {rest : List Char} (h : EndsPath rest) :
    segments rest = ([], rest) := by
  fun_cases segments rest with
  | case1 => rfl
  | case2 c cs hc =>
    have hstop := stopsAt_cons.mp (h.2 _ rfl)
    rw [hc] at hstop
    cases hstop
  | case3 | case4 => rfl

/-- What is read as segments is nothing in front of a text without one, or a dot and a path in
front of a text that ends it. -/
theorem segments_eq_or (cs : List Char) :
    (segments cs = ([], cs) ∧ ∀ ds, cs = '.' :: ds → StopsAt isWordChar ds) ∨
      ∃ path rest, segments cs = ('.' :: path, rest) ∧ IsPath path ∧ EndsPath rest := by
  fun_induction segments cs with
  | case1 => exact .inl ⟨rfl, fun _ h => by cases h⟩
  | case2 c cs hc found ih =>
    have hsegment : IsSegment (c :: cs.takeWhile isWordChar) :=
      isSegment_cons hc fun d hd => List.mem_takeWhile_imp hd
    refine .inr ⟨c :: (cs.takeWhile isWordChar ++ found.1), found.2, rfl, ?_⟩
    rcases ih with ⟨hnil, hdot⟩ | ⟨path, rest, hpath, hispath, hends⟩
    · rw [show found = _ from hnil, List.append_nil]
      exact ⟨.segment hsegment, stopsAt_dropWhile _ _, hdot⟩
    · rw [show found = _ from hpath, ← List.cons_append]
      exact ⟨.dot hsegment hispath, hends⟩
  | case3 c cs hc =>
    refine .inl ⟨rfl, fun ds hds => ?_⟩
    obtain rfl := (List.cons.inj hds).2
    exact stopsAt_cons.mpr (Bool.eq_false_iff.mpr hc)
  | case4 cs hnil hdot =>
    refine .inl ⟨rfl, fun ds hds => ?_⟩
    cases ds with
    | nil => exact stopsAt_nil _
    | cons d ds => exact absurd hds (hdot d ds)

/-- **A path is read exactly if the text starts with a dot and the path**, and what stands behind
does not go on with it. -/
theorem path?_eq_some_iff {cs path rest : List Char} :
    path? cs = some (path, rest) ↔ (IsPath path ∧ EndsPath rest) ∧ '.' :: (path ++ rest) = cs := by
  constructor
  · intro h
    refine ⟨?_, append_of_path? h⟩
    unfold path? at h
    rcases segments_eq_or cs with ⟨hnone, -⟩ | ⟨path', rest', hsome, hpath, hends⟩
    · rw [hnone] at h
      cases h
    · rw [hsome] at h
      obtain ⟨rfl, rfl⟩ := Prod.mk.inj (Option.some.inj h)
      exact ⟨hpath, hends⟩
  · rintro ⟨⟨hpath, hends⟩, rfl⟩
    have hsegments : segments ('.' :: (path ++ rest)) = ('.' :: path, rest) := by
      induction hpath with
      | segment hs =>
        rw [segments_append hs hends.1, segments_of_endsPath hends, List.append_nil]
      | dot hs hpath ih =>
        rw [List.append_assoc, List.cons_append, segments_append hs (stopsAt_cons.mpr (by decide)),
          ih]
    rw [path?, hsegments]

/-! ## Accesses -/

/-- The access is a variable and a path. -/
structure DottedPath.IsAccess (a : DottedPath) : Prop where
  isIdentifier : isIdentifier a.name
  isPath : IsPath a.path

/-- The access is one behind `colons` colons and in front of a text: no double colon stands
directly before it, and none that starts at the same place is longer. -/
structure StartsAccess (colons : Nat) (a : DottedPath) (rest : List Char) : Prop where
  colons_lt : colons < 2
  isAccess : a.IsAccess
  longest : ∀ (b : DottedPath) left, b.IsAccess → b.dotted ++ left = a.dotted ++ rest →
    b.dotted.length ≤ a.dotted.length

/-- A path goes on in a text up to where it ends. -/
theorem exists_endsPath {path : List Char} (h : IsPath path) (left : List Char) :
    ∃ more rest, left = more ++ rest ∧ IsPath (path ++ more) ∧ EndsPath rest := by
  have hword : IsPath (path ++ left.takeWhile isWordChar) :=
    h.append_word fun c hc => List.mem_takeWhile_imp hc
  rcases segments_eq_or (left.dropWhile isWordChar) with ⟨-, hdot⟩ |
    ⟨path', rest, hsome, hpath, hends⟩
  · exact ⟨left.takeWhile isWordChar, left.dropWhile isWordChar,
      List.takeWhile_append_dropWhile.symm, hword, stopsAt_dropWhile _ _, hdot⟩
  · have hdrop := append_segments (left.dropWhile isWordChar)
    rw [hsome] at hdrop
    refine ⟨left.takeWhile isWordChar ++ '.' :: path', rest, ?_, ?_, hends⟩
    · rw [List.append_assoc, hdrop, List.takeWhile_append_dropWhile]
    · rw [← List.append_assoc]
      exact hword.append_dot hpath

/-- An access is read up to where its path ends. -/
theorem dotted?_append {a : DottedPath} (h : a.IsAccess) {colons : Nat} (hcolons : colons < 2)
    {rest : List Char} (hrest : EndsPath rest) :
    dotted? colons (a.dotted ++ rest) = some (a, rest) := by
  have hname : variableName? (a.dotted ++ rest) = some (a.name, '.' :: (a.path ++ rest)) := by
    rw [DottedPath.dotted, List.cons_append, List.append_assoc, List.cons_append]
    exact variableName?_append h.isIdentifier (stopsAt_cons.mpr (by decide))
  have hpath : path? ('.' :: (a.path ++ rest)) = some (a.path, rest) :=
    path?_eq_some_iff.mpr ⟨⟨h.isPath, hrest⟩, rfl⟩
  rw [dotted?, if_neg (Nat.not_le.mpr hcolons), hname]
  simp only [Option.bind_eq_bind, Option.bind_some, hpath]
  rfl

/-- What is read as an access is one, and its path ends behind it. -/
theorem isAccess_of_dotted? {colons : Nat} {cs : List Char} {a : DottedPath} {rest : List Char}
    (h : dotted? colons cs = some (a, rest)) : colons < 2 ∧ a.IsAccess ∧ EndsPath rest := by
  unfold dotted? at h
  split at h
  · cases h
  · rename_i hcolons
    obtain ⟨⟨name, cs₁⟩, hname, h⟩ := Option.bind_eq_some_iff.mp h
    obtain ⟨⟨path, cs₂⟩, hpath, h⟩ := Option.bind_eq_some_iff.mp h
    obtain ⟨rfl, rfl⟩ := Prod.mk.inj (Option.some.inj h)
    obtain ⟨⟨hispath, hends⟩, -⟩ := path?_eq_some_iff.mp hpath
    exact ⟨Nat.lt_of_not_le hcolons, ⟨(isIdentifier_of_variableName? hname).1, hispath⟩, hends⟩

/-- An access is as long as possible if its path ends behind it, and only then. -/
theorem longest_iff {a : DottedPath} (h : a.IsAccess) {rest : List Char} :
    (∀ (b : DottedPath) left, b.IsAccess → b.dotted ++ left = a.dotted ++ rest →
      b.dotted.length ≤ a.dotted.length) ↔ EndsPath rest := by
  constructor
  · intro hlongest
    obtain ⟨more, rest', rfl, hpath, hends⟩ := exists_endsPath h.isPath rest
    have htext : (DottedPath.mk a.name (a.path ++ more)).dotted = a.dotted ++ more := by
      simp [DottedPath.dotted]
    have hlength := hlongest ⟨a.name, a.path ++ more⟩ rest' ⟨h.isIdentifier, hpath⟩
      (by rw [htext, List.append_assoc])
    rw [htext, List.length_append] at hlength
    obtain rfl : more = [] := List.eq_nil_of_length_eq_zero (by omega)
    exact hends
  · intro hends b left hb heq
    obtain ⟨more, rest', rfl, hpath, hends'⟩ := exists_endsPath hb.isPath left
    -- The longest access from the place of both is the one that is read there.
    have htext : (DottedPath.mk b.name (b.path ++ more)).dotted = b.dotted ++ more := by
      simp [DottedPath.dotted]
    have haccess : DottedPath.IsAccess ⟨b.name, b.path ++ more⟩ := ⟨hb.isIdentifier, hpath⟩
    have hread := dotted?_append haccess Nat.two_pos hends'
    rw [htext, List.append_assoc, heq, dotted?_append h (by decide) hends] at hread
    obtain ⟨hsame, -⟩ := Prod.mk.inj (Option.some.inj hread)
    rw [hsame, htext, List.length_append]
    exact Nat.le_add_right _ _

/-- **An access is read exactly where one starts.** -/
theorem dotted?_eq_some_iff {colons : Nat} {cs : List Char} {a : DottedPath} {rest : List Char} :
    dotted? colons cs = some (a, rest) ↔ StartsAccess colons a rest ∧ a.dotted ++ rest = cs := by
  constructor
  · intro h
    obtain ⟨hcolons, haccess, hends⟩ := isAccess_of_dotted? h
    exact ⟨⟨hcolons, haccess, (longest_iff haccess).mpr hends⟩, append_of_dotted? h⟩
  · rintro ⟨⟨hcolons, haccess, hlongest⟩, rfl⟩
    exact dotted?_append haccess hcolons ((longest_iff haccess).mp hlongest)

/-! ## The cut at the accesses -/

/-- A text is cut at its accesses. -/
abbrev AccessCut (cs : List Char) (pieces : List (Piece DottedPath)) : Prop :=
  CutFrom DottedPath.dotted StartsAccess 0 cs pieces

/-- The pieces of a text are its cut at its accesses. -/
theorem accessCut_iff {cs : List Char} {pieces : List (Piece DottedPath)} :
    AccessCut cs pieces ↔ dottedAccess.pieces cs = pieces :=
  cutFrom_iff dottedAccess fun _ _ _ _ => dotted?_eq_some_iff

/-- How a piece is written when accesses are calls. -/
inductive Respelled : Piece DottedPath → List Char → Prop where
  | literal (l : Literal) : Respelled (.literal l) l.text
  | char (c : Char) : Respelled (.char c) [c]
  | access (a : DottedPath) : Respelled (.phrase a)
    ("data_get($" ++ String.ofList a.name ++ ", '" ++ String.ofList a.path ++ "')").toList

/-- A piece is respelled by writing its access as a call. -/
theorem respelled_call (p : Piece DottedPath) : Respelled p (p.text DottedPath.call) := by
  match p with
  | .literal l => exact .literal l
  | .char c => exact .char c
  | .phrase a =>
    have hcall : a.call =
        ("data_get($" ++ String.ofList a.name ++ ", '" ++ String.ofList a.path ++
          "')").toList := by
      simp [DottedPath.call, accessorCall, accessorFunction]
    rw [Piece.text, hcall]
    exact .access a

/-- **An expression has one cut at its accesses**, and with its accesses as calls it is the text of
this cut with each access as a call and every other piece as it was. With the accesses in place of
the calls again it is the old expression. -/
theorem exists_accessCut (expression : String) :
    ∃ pieces texts, (∀ others, AccessCut expression.toList others ↔ others = pieces) ∧
      List.Forall₂ Respelled pieces texts ∧
      (callAccesses expression).toList = texts.flatten ∧
      (pieces.flatMap (Piece.text DottedPath.dotted)) = expression.toList := by
  refine ⟨dottedAccess.pieces expression.toList,
    (dottedAccess.pieces expression.toList).map (Piece.text DottedPath.call),
    fun others => accessCut_iff.trans eq_comm, ?_, ?_, dottedAccess.text_pieces _⟩
  · exact List.forall₂_map_right_iff.mpr (List.forall₂_same.mpr fun p _ => respelled_call p)
  · rw [callAccesses, Phrase.respell, String.toList_ofList, List.flatMap_def]

end ViewCompiler.Expression
