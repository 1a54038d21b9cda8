import ViewCompiler.Proofs.Expression.Operands

/-!
# Why operands need no parentheses

What stands outside of the literals and groups of an operand is names with the marks between them,
or one number with its sign and its point (`BareText`), so there is nothing that an operator around
the operand could divide it at. No group of an operand is closed before its end, so the operand is
not two calls with something between them. `Undivided` is both, and an atomic expression is
`Undivided` (`isAtomic_iff`).
-/

namespace ViewCompiler.Expression

/-! ## What stands outside of literals and groups -/

/-- The characters of the text outside of literals and groups, without parentheses and quotes. -/
def Scan.bare : Scan → List Char → List Char
  | _, [] => []
  | s, c :: cs =>
    if s = .start ∧ isPlainChar c = true then c :: (s.step c).bare cs else (s.step c).bare cs

/-- Names, and what stands before and between names. -/
inductive NameText : List Char → Prop where
  | nil : NameText []
  | char {c : Char} {cs : List Char} (hc : isIdentifierChar c = true) (h : NameText cs) :
      NameText (c :: cs)
  | sigil {cs : List Char} (h : NameText cs) : NameText ('$' :: cs)
  | root {cs : List Char} (h : NameText cs) : NameText ('\\' :: cs)
  | arrow {cs : List Char} (h : NameText cs) : NameText ('-' :: '>' :: cs)
  | colons {cs : List Char} (h : NameText cs) : NameText (':' :: ':' :: cs)

/-- Names and what stands before and between them, or one number: a minus only at its start, and a
point only between its digits. -/
inductive BareText : List Char → Prop where
  | names {cs : List Char} (h : NameText cs) : BareText cs
  | number {cs : List Char} (h : IsNumber cs) : BareText cs

/-- Characters of identifiers are the text of a name. -/
theorem nameText_of_forall {cs : List Char} (h : ∀ c ∈ cs, isIdentifierChar c = true) :
    NameText cs := by
  induction cs with
  | nil => exact .nil
  | cons c cs ih =>
    obtain ⟨hc, hcs⟩ := List.forall_mem_cons.mp h
    exact .char hc (ih hcs)

/-- Texts of names make a text of a name. -/
theorem NameText.append {cs ds : List Char} (h : NameText cs) (hds : NameText ds) :
    NameText (cs ++ ds) := by
  induction h with
  | nil => exact hds
  | char hc _ ih => exact .char hc ih
  | sigil _ ih => exact .sigil ih
  | root _ ih => exact .root ih
  | arrow _ ih => exact .arrow ih
  | colons _ ih => exact .colons ih

/-- The marks that stand outside of literals and groups of an operand. -/
def operandMarks : List Char := "$\\->:.".toList

/-- The text of a name has characters of identifiers and the marks of operands only. -/
theorem NameText.mem {cs : List Char} (h : NameText cs) :
    ∀ c ∈ cs, isIdentifierChar c = true ∨ c ∈ operandMarks := by
  induction h with
  | nil => exact List.forall_mem_nil _
  | char hc _ ih => exact List.forall_mem_cons.mpr ⟨.inl hc, ih⟩
  | sigil _ ih | root _ ih => exact List.forall_mem_cons.mpr ⟨.inr (by decide), ih⟩
  | arrow _ ih | colons _ ih =>
    exact List.forall_mem_cons.mpr
      ⟨.inr (by decide), List.forall_mem_cons.mpr ⟨.inr (by decide), ih⟩⟩

/-- A number has characters of identifiers and the marks of operands only. -/
theorem IsNumber.mem {cs : List Char} (h : IsNumber cs) :
    ∀ c ∈ cs, isIdentifierChar c = true ∨ c ∈ operandMarks := by
  have hdigits : ∀ {digits : List Char}, IsDigits digits →
      ∀ c ∈ digits, isIdentifierChar c = true ∨ c ∈ operandMarks := fun hdigits c hc =>
    .inl (isIdentifierChar_of_isDecimalDigit (hdigits.2 c hc))
  obtain ⟨hsign, hwhole, hfraction⟩ := h
  refine List.forall_mem_append.mpr ⟨?_, List.forall_mem_append.mpr ⟨hdigits hwhole, ?_⟩⟩
  · rcases hsign with rfl | rfl
    · exact List.forall_mem_nil _
    · exact List.forall_mem_singleton.mpr (.inr (by decide))
  · rcases hfraction with rfl | ⟨digits, hdecimals, rfl⟩
    · exact List.forall_mem_nil _
    · exact List.forall_mem_cons.mpr ⟨.inr (by decide), hdigits hdecimals⟩

/-- A bare text has characters of identifiers and the marks of operands only. -/
theorem BareText.mem {cs : List Char} (h : BareText cs) :
    ∀ c ∈ cs, isIdentifierChar c = true ∨ c ∈ operandMarks := by
  cases h with
  | names h => exact h.mem
  | number h => exact h.mem

/-- ASCII white space, the comma, and the characters of operators that are no marks. -/
def operatorChars : List Char := " \t\n\x0b\x0c\r,?=+*/&|%^<!~@".toList

/-- No white space, comma or operator stands among names. -/
theorem BareText.notMem {cs : List Char} (h : BareText cs) : ∀ c ∈ operatorChars, c ∉ cs := by
  intro c hc hmem
  have hother : ∀ c ∈ operatorChars, isIdentifierChar c = false ∧ c ∉ operandMarks :=
    forall_mem_of_all rfl
  obtain ⟨hname, hmark⟩ := hother c hc
  rcases h.mem c hmem with h | h
  · rw [hname] at h
    cases h
  · exact hmark h

/-- A bare text has no quotes and no parentheses. -/
theorem BareText.isPlainChar {cs : List Char} (h : BareText cs) :
    ∀ c ∈ cs, isPlainChar c = true := by
  intro c hc
  rcases h.mem c hc with hname | hmark
  · have hopen := ne_of_isIdentifierChar hname (show isIdentifierChar '(' = false by decide)
    have hclose := ne_of_isIdentifierChar hname (show isIdentifierChar ')' = false by decide)
    simp [Expression.isPlainChar, isQuote_of_isIdentifierChar hname, hopen, hclose]
  · have hmarks : ∀ c ∈ operandMarks, Expression.isPlainChar c = true := forall_mem_of_all rfl
    exact hmarks c hmark

/-! ## The parts of an operand outside of groups -/

/-- An identifier is the text of a name. -/
theorem nameText_identifier {name : List Char} (h : isIdentifier name = true) : NameText name :=
  nameText_of_forall fun _ hc => isIdentifierChar_of_mem h hc

/-- A character of a word can stand in an identifier. -/
theorem isIdentifierChar_of_isWordChar {c : Char} (h : isWordChar c = true) :
    isIdentifierChar c = true := by
  rw [isIdentifierChar, h, Bool.true_or]

/-- The first character of a word can stand in an identifier. -/
theorem isIdentifierChar_of_isWordStart {c : Char} (h : isWordStart c = true) :
    isIdentifierChar c = true := by
  refine isIdentifierChar_of_start ?_
  rw [isWordStart] at h
  rw [isIdentifierStart, h, Bool.true_or]

/-- A chain is the text of a name. -/
theorem IsChain.nameText {cs : List Char} (h : IsChain cs) : NameText cs := by
  obtain ⟨hname, hlinks⟩ := h
  rename_i name links
  refine .sigil ((nameText_identifier hname).append ?_)
  induction links with
  | nil => exact .nil
  | cons link links ih =>
    obtain ⟨hlink, hlinks⟩ := List.forall_mem_cons.mp hlinks
    exact .arrow ((nameText_identifier hlink).append (ih hlinks))

/-- A word is the text of a name. -/
theorem IsWord.nameText {cs : List Char} (h : IsWord cs) : NameText cs := by
  obtain ⟨hc, hcs⟩ := h
  exact .char (isIdentifierChar_of_isWordStart hc)
    (nameText_of_forall fun d hd => isIdentifierChar_of_isWordChar (hcs d hd))

/-- The name of a function is the text of a name. -/
theorem IsFunctionName.nameText {cs : List Char} (h : IsFunctionName cs) : NameText cs := by
  obtain ⟨hroot, hc, hname, hmethod⟩ := h
  rename_i root name method c
  have hmethod' : NameText method := by
    rcases hmethod with rfl | ⟨called, hcalled, rfl⟩
    · exact .nil
    · exact .colons (nameText_identifier hcalled)
  have hname' : NameText name := by
    clear hmethod
    induction name with
    | nil => exact .nil
    | cons d name ih =>
      obtain ⟨hd, hrest⟩ := List.forall_mem_cons.mp hname
      rcases (Bool.or_eq_true _ _).mp hd with hword | hback
      · exact .char (isIdentifierChar_of_isWordChar hword) (ih hrest)
      · rw [beq_iff_eq.mp hback]
        exact .root (ih hrest)
  have hbody := NameText.char (isIdentifierChar_of_isWordStart hc) (hname'.append hmethod')
  rcases hroot with rfl | rfl
  · exact hbody
  · exact .root hbody

/-! ## Scanning an operand -/

namespace Scan

/-- What is bare in two texts is what is bare in the first and, from there, in the second. -/
theorem bare_append (s : Scan) (cs ds : List Char) :
    s.bare (cs ++ ds) = s.bare cs ++ (s.run cs).bare ds := by
  induction cs generalizing s with
  | nil => rfl
  | cons c cs ih =>
    rw [List.cons_append, bare, bare, ih, run_cons]
    split <;> rfl

/-- A plain text is bare all through. -/
theorem bare_plain {plain : List Char} (h : ∀ c ∈ plain, isPlainChar c = true) :
    start.bare plain = plain := by
  induction plain with
  | nil => rfl
  | cons c plain ih =>
    obtain ⟨hc, hplain⟩ := List.forall_mem_cons.mp h
    have hstep : start.step c = start := step_plain 0 hc
    rw [bare, if_pos ⟨rfl, hc⟩, hstep, ih hplain]

/-- A character in a literal or in parentheses is not bare. -/
theorem bare_cons_of_ne {s : Scan} (h : s ≠ start) (c : Char) (cs : List Char) :
    s.bare (c :: cs) = (s.step c).bare cs := by
  rw [bare, if_neg fun hs => h hs.1]

/-- Nothing in a group stands outside of groups. -/
theorem bare_of_returns {s : Scan} {cs : List Char} (h : s.Returns cs) : s.bare cs = [] := by
  induction cs generalizing s with
  | nil => rfl
  | cons c cs ih =>
    obtain ⟨hdepth, hcs⟩ := returns_cons.mp h
    have hs : s ≠ start := by
      rintro rfl
      exact absurd hdepth (by decide)
    rw [bare_cons_of_ne hs, ih hcs]

/-- A scan in a literal is not at its start. -/
theorem inside_ne_start (quote : Char) (depth : Int) :
    (⟨.inside quote, depth⟩ : Scan) ≠ start := by
  intro h
  cases h

/-- A scan behind a backslash is not at its start. -/
theorem escaped_ne_start (quote : Char) (depth : Int) :
    (⟨.escaped quote, depth⟩ : Scan) ≠ start := by
  intro h
  cases h

/-- Nothing in a literal is bare. -/
theorem bare_inside {quote : Char} {inside : List Char} (h : Inside quote inside) :
    bare ⟨.inside quote, 0⟩ inside = [] := by
  have hinside := inside_ne_start quote 0
  have hescaped := escaped_ne_start quote 0
  induction h with
  | nil => rfl
  | escape c _ ih =>
    rw [bare_cons_of_ne hinside, step_backslash, bare_cons_of_ne hescaped, step_escaped, ih]
  | plain hback hquote _ ih =>
    rw [bare_cons_of_ne hinside, step_inside 0 hback, if_neg hquote, ih]

/-- Nothing is open behind a group. -/
theorem Returns.run_eq_start {s : Scan} {inside : List Char} (h : s.Returns (inside ++ [')'])) :
    s.run (inside ++ [')']) = start := by
  obtain ⟨hzero, hpos⟩ := h
  have hdepth := hpos inside [')'] rfl (List.cons_ne_nil _ _)
  rw [run_append, run_cons, run_nil] at hzero ⊢
  generalize s.run inside = before at hzero hdepth ⊢
  obtain ⟨quoting, depth⟩ := before
  cases quoting with
  | outside =>
    rw [step_close] at hzero ⊢
    exact congrArg (Scan.mk .outside) hzero
  | inside quote | escaped quote =>
    -- In a literal the last parenthesis would close nothing.
    have hsame : depth = 0 := hzero
    exact absurd hsame (Int.ne_of_gt hdepth)

/-- Nothing in a literal stands outside of literals. -/
theorem bare_literal {l : Literal} (h : l.IsTerminated) : start.bare l.text = [] := by
  have hopening : ¬ (start = start ∧ isPlainChar l.quote = true) := by
    simp [isPlainChar, h.isQuote]
  have hclosing := inside_ne_start l.quote 0
  rw [Literal.text, bare, if_neg hopening, start, step_quote 0 h.isQuote, bare_append,
    bare_inside h.inside, run_inside h.inside, bare_cons_of_ne hclosing]
  rfl

end Scan

/-- Nothing divides the text: no literal or group is left open, no group is closed before the end,
and no operator stands outside of literals and groups. -/
structure Undivided (cs : List Char) : Prop where
  run_eq : Scan.start.run cs = .start
  depth_pos : ∀ before middle after, cs = before ++ (middle ++ after) → after ≠ [] →
    0 < (Scan.start.run before).depth → 0 < (Scan.start.run (before ++ middle)).depth
  bareText : BareText (Scan.start.bare cs)
  notMem : ∀ c ∈ operatorChars, c ∉ Scan.start.bare cs

/-- No group is opened among names. -/
theorem BareText.depth_run {cs before after : List Char} (h : BareText cs)
    (htext : cs = before ++ after) : (Scan.start.run before).depth = 0 := by
  subst htext
  rw [Scan.start, Scan.run_plain fun c hc => h.isPlainChar c (List.mem_append_left _ hc)]

/-- A bare text is undivided. -/
theorem BareText.undivided {cs : List Char} (h : BareText cs) : Undivided cs := by
  have hbare := Scan.bare_plain h.isPlainChar
  refine ⟨Scan.run_plain h.isPlainChar 0, fun before middle after htext _ hpos => ?_, ?_, ?_⟩
  · rw [h.depth_run htext] at hpos
    exact absurd hpos (by decide)
  · rwa [hbare]
  · rw [hbare]
    exact h.notMem

/-- A literal that is closed is undivided. -/
theorem Literal.IsTerminated.undivided {l : Literal} (h : l.IsTerminated) : Undivided l.text := by
  have hbare := Scan.bare_literal h
  refine ⟨Scan.run_literal h 0, fun before middle after htext hafter hpos => ?_, ?_, ?_⟩
  · have hzero : (Scan.start.run before).depth = 0 := by
      cases before with
      | nil => rfl
      | cons c before =>
        rw [Literal.text, List.cons_append] at htext
        obtain ⟨rfl, htail⟩ := List.cons.inj htext
        -- The closing quote is in what follows.
        obtain ⟨last, hlast⟩ : ∃ last, l.inside = before ++ last := by
          rcases List.append_eq_append_iff.mp htail with ⟨rest, hrest, hquote⟩ | ⟨rest, hrest, -⟩
          · cases rest with
            | nil => exact ⟨[], by rw [hrest, List.append_nil, List.append_nil]⟩
            | cons d rest =>
              have hnil : middle ++ after = [] := by
                have := congrArg List.length hquote
                simp only [List.length_append, List.length_cons, List.length_nil] at this
                exact List.length_eq_zero_iff.mp (by simp only [List.length_append]; omega)
              exact absurd (List.append_eq_nil_iff.mp hnil).2 hafter
          · exact ⟨rest, hrest⟩
        have hinside := h.inside
        rw [hlast] at hinside
        rw [Scan.run_cons, Scan.start, Scan.step_quote 0 h.isQuote,
          Scan.depth_run_of_append_inside hinside]
    rw [hzero] at hpos
    exact absurd hpos (by decide)
  · rw [hbare]
    exact .names .nil
  · rw [hbare]
    exact fun c _ => List.not_mem_nil

/-- A call is undivided if its parentheses close at its end. -/
theorem undivided_call {callee inside : List Char} (hcallee : NameText callee)
    (h : Scan.Returns ⟨.outside, 1⟩ (inside ++ [')'])) :
    Undivided (callee ++ '(' :: (inside ++ [')'])) := by
  have hnames := BareText.names hcallee
  have hplain := hnames.isPlainChar
  have hrun : Scan.start.run callee = .start := Scan.run_plain hplain 0
  have hgroup : ∀ cs, Scan.start.run (callee ++ '(' :: cs) = Scan.run ⟨.outside, 1⟩ cs := by
    intro cs
    rw [Scan.run_append, hrun, Scan.run_cons]
    rfl
  have hbare : Scan.start.bare (callee ++ '(' :: (inside ++ [')'])) = callee := by
    rw [Scan.bare_append, hrun, Scan.bare_plain hplain, Scan.bare]
    show callee ++ Scan.bare ⟨.outside, 1⟩ (inside ++ [')']) = callee
    rw [Scan.bare_of_returns h, List.append_nil]
  refine ⟨?_, fun before middle after htext hafter hpos => ?_, ?_, ?_⟩
  · rw [hgroup, h.run_eq_start]
  · have hcallee_pos : ∀ rest, callee = before ++ rest → False := fun rest hrest => by
      rw [hnames.depth_run hrest] at hpos
      exact absurd hpos (by decide)
    rw [← List.append_assoc] at htext
    rcases List.append_eq_append_iff.mp htext with ⟨rest, hrest, hafter'⟩ | ⟨rest, hrest, -⟩
    · cases rest with
      | nil =>
        rw [List.append_nil] at hrest
        exact absurd hrest.symm (hcallee_pos middle)
      | cons c rest =>
        obtain ⟨rfl, htail⟩ := List.cons.inj hafter'
        rw [hrest, hgroup]
        exact h.2 rest after htail hafter
    · rw [List.append_assoc] at hrest
      exact absurd hrest (hcallee_pos _)
  · rw [hbare]
    exact hnames
  · rw [hbare]
    exact hnames.notMem

/-- **Nothing divides an operand.** -/
theorem Operand.undivided {cs : List Char} (h : Operand cs) : Undivided cs := by
  cases h with
  | chain h => exact (BareText.names h.nameText).undivided
  | literal h => exact h.undivided
  | number h => exact (BareText.number h).undivided
  | word h => exact (BareText.names h.nameText).undivided
  | call hcallee h => exact undivided_call (hcallee.elim (·.nameText) (·.nameText)) h

/-! ## Atomic expressions -/

/-- **An expression is atomic if and only if it is an operand**, if it does not end in a line feed,
and then nothing divides it: with literals skipped, no group but the last is closed before the end,
and what stands outside of groups is names or one number. -/
theorem isAtomic_iff {expression : String} (hend : expression.toList.getLast? ≠ some '\n') :
    (isAtomic expression = true ↔ Operand expression.toList) ∧
      (isAtomic expression = true → Undivided expression.toList) :=
  ⟨operand_iff hend, fun h => ((operand_iff hend).mp h).undivided⟩

/-- A call with a quoted parenthesis and an escaped quote in its group is an operand, and two calls
with a dot between them are none, though they start with a callee and a group and end with a
parenthesis. -/
theorem isAtomic_iff_calls :
    Operand "$a->f('(\\\\\\'', \\N\\g(1))".toList ∧
      Undivided "$a->f('(\\\\\\'', \\N\\g(1))".toList ∧ ¬ Operand "f(')') . g('(')".toList := by
  have hcall : isAtomic "$a->f('(\\\\\\'', \\N\\g(1))" = true := by decide +kernel
  have htwo : isAtomic "f(')') . g('(')" = false := by decide +kernel
  have h := @isAtomic_iff "$a->f('(\\\\\\'', \\N\\g(1))" (by decide)
  have h' := @isAtomic_iff "f(')') . g('(')" (by decide)
  refine ⟨h.1.mp hcall, h.2 hcall, fun hoperand => ?_⟩
  rw [h'.1.mpr hoperand] at htwo
  cases htwo

end ViewCompiler.Expression
