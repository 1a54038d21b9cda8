import ViewCompiler.Proofs.Expression.Calls
import ViewCompiler.Proofs.Expression.Groups
import ViewCompiler.Proofs.Text.Cut
import ViewCompiler.Template.Lexemes

/-!
# How lexemes are written

`Spelling saying source` is the grammar of the lexemes: `source` is a way of writing what a lexeme
says. It is given by rules, one for each kind of lexeme, and does not mention the readers. What the
readers find is written by these rules (`spelling_of_mem_lexemes`).
-/

namespace ViewCompiler.Template

open Text (isBlank trim lower foldedWord? FirstMark cutAt? cutInLine?)
open Expression
  (IsGroup StopsAt isIdentifier isIdentifierChar identifier? variableName? isWordChar)

/-! ## Parts of lexemes -/

/-- A text of blanks. -/
def Blanks (cs : List Char) : Prop := ∀ c ∈ cs, isBlank c = true

/-- The word is spelled in some case. -/
def Folded (word found : List Char) : Prop := foldedWord? word found = some (found, [])

/-- The text can name a component. -/
def isTagName : List Char → Bool
  | [] => false
  | c :: cs => c.isAlphanum && cs.all isTagChar

/-- The text can name a slot. -/
def isSlotName : List Char → Bool
  | [] => false
  | c :: cs => (c :: cs).all isSlotNameChar

/-- The end of a tag, which may close itself. -/
def tagMark (closed : Bool) : List Char := if closed then ['/', '>'] else ['>']

/-- The text stands between the name and the end of a tag. -/
def IsTagBody (source : List Char) (closed : Bool) : Prop :=
  tagBody? (source ++ tagMark closed) = some (source, closed, [])

/-- The text ends the name of a component in its opening tag. -/
def EndsName (cs : List Char) : Prop :=
  ∃ c ∈ cs.head?, (isBlank c || c == '/' || c == '>') = true

/-- The arguments of a directive, in the text of the directive. -/
inductive Invoked (keyword : List Char) : (arguments source : List Char) → Prop where
  | mk {blanks inside : List Char} (hblanks : Blanks blanks) (hgroup : IsGroup inside)
      (hinside : trim inside ≠ []) :
      Invoked keyword (trim inside) ('@' :: (keyword ++ (blanks ++ '(' :: (inside ++ [')']))))

/-- The variables of a loop, the key first. -/
inductive LoopVariables : (key : Option (List Char)) → (item source : List Char) → Prop where
  | item {item blanks : List Char} (hitem : isIdentifier item = true) (hblanks : Blanks blanks) :
      LoopVariables none item ('$' :: (item ++ blanks))
  | keyed {key item before after source : List Char} (hkey : isIdentifier key = true)
      (hbefore : Blanks before) (hafter : Blanks after) (h : LoopVariables none item source) :
      LoopVariables (some key) item ('$' :: (key ++ (before ++ '=' :: '>' :: (after ++ source))))

/-- The head of a loop: a collection, the word `as` between blanks, and the variables. -/
inductive LoopText : LoopHead → (source : List Char) → Prop where
  | mk {collection before word after item source : List Char} {key : Option (List Char)}
      (hcollection : collection ≠ []) (hbefore : Blanks before ∧ before ≠ [])
      (hword : Folded ['a', 's'] word) (hafter : Blanks after ∧ after ≠ [])
      (h : LoopVariables key item source) :
      LoopText ⟨String.ofList (trim collection), String.ofList item, key.map String.ofList⟩
        (collection ++ (before ++ (word ++ (after ++ source))))

/-! ## Lexemes -/

/-- The text is a way of writing what a lexeme says. -/
inductive Spelling : Saying → List Char → Prop where
  | text (source : List Char) : Spelling .text source
  | comment {inside : List Char} (h : FirstMark (fun _ => false) "--\x7d\x7d".toList inside) :
      Spelling (.node (.comment (String.ofList (trim inside))))
        ("\x7b\x7b--".toList ++ (inside ++ "--\x7d\x7d".toList))
  | rawEcho {inside : List Char} (h : FirstMark (· == '\n') "\x7d\x7d\x7d".toList inside)
      (hinside : trim inside ≠ []) :
      Spelling (.node (.echo (String.ofList (trim inside)) false))
        ("\x7b\x7b\x7b".toList ++ (inside ++ "\x7d\x7d\x7d".toList))
  | escapedEcho {inside : List Char} (h : FirstMark (· == '\n') "\x7d\x7d".toList inside)
      (hinside : trim inside ≠ []) :
      Spelling (.node (.echo (String.ofList (trim inside)) true))
        ("\x7b\x7b".toList ++ (inside ++ "\x7d\x7d".toList))
  | hostCode {c : Char} {inside : List Char}
      (h : FirstMark (fun _ => false) "?>".toList (c :: inside)) (hblank : isBlank c = true) :
      Spelling (.node (.host (String.ofList (trim (c :: inside))) false))
        ("<?php".toList ++ (c :: inside ++ "?>".toList))
  | hostEcho {inside : List Char} (h : FirstMark (fun _ => false) "?>".toList inside) :
      Spelling (.node (.host (String.ofList (trim inside)) true))
        ("<?=".toList ++ (inside ++ "?>".toList))
  | flag {kind : String} {arguments source : List Char}
      (hkind : kind ∈ ["checked", "selected", "disabled"])
      (h : Invoked kind.toList arguments source) :
      Spelling (.node (.flag kind (String.ofList arguments))) source
  /-- A later condition whose keyword has another name in lower case is a boolean attribute. -/
  | foldedFlag {keyword arguments source : List Char} (hkeyword : Folded "elseif".toList keyword)
      (hlower : lower keyword ≠ "elseif".toList) (h : Invoked keyword arguments source) :
      Spelling (.node (.flag (String.ofList (lower keyword)) (String.ofList arguments))) source
  | conditional {arguments source : List Char} (h : Invoked "if".toList arguments source) :
      Spelling (.opening (.conditional (String.ofList arguments))) source
  | loop {head : LoopHead} {arguments source : List Char}
      (h : Invoked "each".toList arguments source) (hhead : LoopText head arguments) :
      Spelling (.opening (.loop head)) source
  | existence {arguments source : List Char} (h : Invoked "has".toList arguments source) :
      Spelling (.opening (.existence (String.ofList arguments))) source
  | nextCondition {keyword arguments source : List Char}
      (hkeyword : Folded "elseif".toList keyword) (hlower : lower keyword = "elseif".toList)
      (h : Invoked keyword arguments source) :
      Spelling (.branch (some (String.ofList arguments))) source
  | alternative {keyword : List Char} (hkeyword : Folded "else".toList keyword) :
      Spelling (.branch none) ('@' :: keyword)
  | closing {closer : String × Closing} {keyword : List Char} (hcloser : closer ∈ closers)
      (hkeyword : Folded closer.1.toList keyword) :
      Spelling (.closing (closingNamed (lower keyword))) ('@' :: keyword)
  | slotOpening {name blanks : List Char} (hname : isSlotName name = true)
    (hblanks : Blanks blanks) :
      Spelling (.slotOpening (String.ofList name))
        ("<x-slot:".toList ++ (name ++ (blanks ++ ['>'])))
  | slotClosing {blanks : List Char} (hblanks : Blanks blanks) :
      Spelling .slotClosing ("</x-slot".toList ++ (blanks ++ ['>']))
  | openingTag {name source : List Char} (hname : isTagName name = true)
      (hslot : String.ofList name ≠ "slot") (hend : EndsName (source ++ tagMark false))
      (h : IsTagBody source false) :
      Spelling
        (.opening (.component (String.ofList name) (attributes (String.ofList (trim source)))))
        ("<x-".toList ++ (name ++ (source ++ tagMark false)))
  | closedTag {name source : List Char} (hname : isTagName name = true)
      (hslot : String.ofList name ≠ "slot") (hend : EndsName (source ++ tagMark true))
      (h : IsTagBody source true) :
      Spelling
        (.node (.component (String.ofList name) (attributes (String.ofList (trim source))) [] []))
        ("<x-".toList ++ (name ++ (source ++ tagMark true)))
  | closingTag {name blanks : List Char} (hname : isTagName name = true)
    (hblanks : Blanks blanks) :
      Spelling (.tagClosing (String.ofList name)) ("</x-".toList ++ (name ++ (blanks ++ ['>'])))

/-! ## Reading the parts -/

/-- The blanks in front of a text are blanks. -/
theorem blanks_takeWhile (cs : List Char) : Blanks (cs.takeWhile isBlank) :=
  fun _ h => List.mem_takeWhile_imp h

/-- A word that is found is spelled in some case. -/
theorem folded_of_foldedWord? :
    ∀ {word cs found rest : List Char}, foldedWord? word cs = some (found, rest) →
      Folded word found
  | [], _, found, _, h => by
    obtain ⟨rfl, -⟩ := Prod.mk.inj (Option.some.inj h)
    rfl
  | letter :: word, [], _, _, h => by cases h
  | letter :: word, c :: cs, found, rest, h => by
    simp only [foldedWord?] at h
    split at h
    · rename_i hletter
      obtain ⟨⟨tail, rest'⟩, h', heq⟩ := Option.map_eq_some_iff.mp h
      obtain ⟨rfl, rfl⟩ := Prod.mk.inj heq
      have ih : foldedWord? word tail = some (tail, []) := folded_of_foldedWord? h'
      rw [Folded, foldedWord?, if_pos hletter, ih, Option.map_some]
    · cases h

/-- What is read as the name of a tag is one, and no further character of a name follows. -/
theorem isTagName_of_tagName? {cs name rest : List Char} (h : tagName? cs = some (name, rest)) :
    isTagName name = true ∧ StopsAt isTagChar rest ∧ name ++ rest = cs := by
  cases cs with
  | nil => cases h
  | cons c cs =>
    simp only [tagName?] at h
    split at h
    · rename_i hstart
      obtain ⟨rfl, rfl⟩ := Prod.mk.inj (Option.some.inj h)
      refine ⟨?_, Expression.stopsAt_dropWhile _ _, ?_⟩
      · rw [isTagName, hstart, Bool.true_and, List.all_takeWhile]
      · rw [List.cons_append, List.takeWhile_append_dropWhile]
    · cases h

/-- The end of a tag is a bracket behind blanks. -/
theorem exists_of_tagEnd? {cs rest : List Char} (h : tagEnd? cs = some rest) :
    ∃ blanks, Blanks blanks ∧ blanks ++ (['>'] ++ rest) = cs := by
  refine ⟨_, blanks_takeWhile cs, ?_⟩
  have hmark : ['>'] ++ rest = cs.dropWhile isBlank := Text.append_of_mark? h
  rw [hmark, List.takeWhile_append_dropWhile]

/-- A quoted value in a tag is read over, whatever it holds. -/
theorem tagBody?_quote {c : Char} {value rest : List Char} (hquote : Expression.isQuote c = true)
    (hvalue : FirstMark (fun _ => false) [c] value) :
    tagBody? (c :: (value ++ c :: rest)) =
      (tagBody? rest).map fun found => (c :: (value ++ c :: found.1), found.2) := by
  have hcut : cutAt? [c] (value ++ c :: rest) = some (value, rest) :=
    (Text.cut?_append_iff rest).mpr hvalue
  have hne : c = '\'' ∨ c = '"' := by
    simpa [Expression.isQuote, or_comm] using hquote
  rw [tagBody?, if_neg (by rcases hne with rfl | rfl <;> decide), if_pos hquote]
  · split
    · rename_i value' rest' hcut'
      obtain ⟨rfl, rfl⟩ := Prod.mk.inj (Option.some.inj (hcut.symm.trans hcut'))
      rfl
    · rename_i hcut'
      rw [hcut] at hcut'
      cases hcut'
  · rintro _ rfl
    exact absurd hquote (by decide)
  · rintro rfl
    exact absurd hquote (by decide)

/-- A plain character in a tag is read over. -/
theorem tagBody?_cons {c : Char} {cs : List Char} (hless : c ≠ '<') (hangle : c ≠ '>')
    (hquote : ¬ Expression.isQuote c = true) (hslash : c = '/' → cs.head? ≠ some '>') :
    tagBody? (c :: cs) = (tagBody? cs).map fun found => (c :: found.1, found.2) := by
  rw [tagBody?, if_neg (by simpa using hless), if_neg hquote]
  · rintro cs' rfl rfl
    exact hslash rfl rfl
  · exact hangle

/-- What starts the end of a tag does not depend on the text behind the tag. -/
theorem head?_append_tagMark (source : List Char) (closed : Bool) (other : List Char) :
    (source ++ (tagMark closed ++ other)).head? = (source ++ tagMark closed).head? := by
  cases source <;> cases closed <;> rfl

/-- **The body of a tag is read whatever stands behind the tag.** -/
theorem tagBody?_append {cs source rest : List Char} {closed : Bool}
    (h : tagBody? cs = some (source, closed, rest)) :
    source ++ (tagMark closed ++ rest) = cs ∧
      ∀ other, tagBody? (source ++ (tagMark closed ++ other)) = some (source, closed, other) := by
  fun_induction tagBody? cs generalizing source closed rest with
  | case1 | case4 | case6 => simp at h
  | case2 cs =>
    simp only [Option.some.injEq, Prod.mk.injEq] at h
    obtain ⟨rfl, rfl, rfl⟩ := h
    exact ⟨rfl, fun other => by simp [tagMark, tagBody?]⟩
  | case3 cs =>
    simp only [Option.some.injEq, Prod.mk.injEq] at h
    obtain ⟨rfl, rfl, rfl⟩ := h
    exact ⟨rfl, fun other => by simp [tagMark, tagBody?]⟩
  | case5 c cs hslash hangle hless hquote value mid hcut ih =>
    obtain ⟨⟨source', closed', rest'⟩, h', heq⟩ := Option.map_eq_some_iff.mp h
    simp only [Prod.mk.injEq] at heq
    obtain ⟨rfl, rfl, rfl⟩ := heq
    obtain ⟨happend, hother⟩ := ih h'
    refine ⟨?_, fun other => ?_⟩
    · rw [← Text.append_of_cut? hcut, ← happend]
      simp
    · rw [List.cons_append, List.append_assoc, List.cons_append,
        tagBody?_quote hquote (Text.firstMark_of_cut? hcut), hother, Option.map_some]
  | case7 c cs hslash hangle hless hquote ih =>
    obtain ⟨⟨source', closed', rest'⟩, h', heq⟩ := Option.map_eq_some_iff.mp h
    simp only [Prod.mk.injEq] at heq
    obtain ⟨rfl, rfl, rfl⟩ := heq
    obtain ⟨happend, hother⟩ := ih h'
    refine ⟨by rw [← happend, List.cons_append], fun other => ?_⟩
    rw [List.cons_append, tagBody?_cons (by simpa using hless) hangle hquote, hother,
      Option.map_some]
    rintro rfl hsome
    rw [head?_append_tagMark, ← head?_append_tagMark _ _ rest', happend] at hsome
    obtain ⟨cs', rfl⟩ := List.head?_eq_some_iff.mp hsome
    exact hslash cs' rfl rfl

/-! ## Reading a lexeme -/

/-- What a reader finds is written by the rules, in front of what it leaves. -/
def Spells (read? : List Char → Option (Saying × List Char)) : Prop :=
  ∀ {cs : List Char} {saying : Saying} {rest : List Char}, read? cs = some (saying, rest) →
    ∃ source, source ++ rest = cs ∧ Spelling saying source

/-- The text between two marks. -/
theorem append_of_marked {before : String} {barrier : Char → Bool}
    {after cs mid inside rest : List Char}
    (h₁ : Text.mark? before cs = some mid)
    (h₂ : Text.cut? barrier after mid = some (inside, rest)) :
    before.toList ++ (inside ++ after) ++ rest = cs := by
  rw [← Text.append_of_mark? h₁, ← Text.append_of_cut? h₂, List.append_assoc]

/-- What is read as a comment is spelled as one. -/
theorem spells_comment? : Spells comment? := by
  intro cs saying rest h
  obtain ⟨⟨inside, rest'⟩, h, heq⟩ := Option.bind_eq_some_iff.mp h
  obtain ⟨mid, h₁, h₂⟩ := Option.bind_eq_some_iff.mp h
  obtain ⟨rfl, rfl⟩ := Prod.mk.inj (Option.some.inj heq)
  exact ⟨_, append_of_marked h₁ h₂, .comment (Text.firstMark_of_cut? h₂)⟩

/-- What stands between the marks of an echo is its expression, or text if it is blank. -/
theorem spelling_echo {inside source : List Char} {escaped : Bool}
    (h : trim inside ≠ [] →
    Spelling (.node (.echo (String.ofList (trim inside)) escaped)) source) :
    Spelling (echo inside escaped) source := by
  unfold echo
  split
  · exact .text _
  · rename_i c inside' htrim
    rw [htrim] at h
    exact h (List.cons_ne_nil c inside')

/-- What is read as a raw echo is spelled as one. -/
theorem spells_rawEcho? : Spells rawEcho? := by
  intro cs saying rest h
  obtain ⟨⟨inside, rest'⟩, h, heq⟩ := Option.bind_eq_some_iff.mp h
  obtain ⟨mid, h₁, h₂⟩ := Option.bind_eq_some_iff.mp h
  obtain ⟨rfl, rfl⟩ := Prod.mk.inj (Option.some.inj heq)
  exact ⟨_, append_of_marked h₁ h₂, spelling_echo (.rawEcho (Text.firstMark_of_cut? h₂))⟩

/-- What is read as an escaped echo is spelled as one. -/
theorem spells_escapedEcho? : Spells escapedEcho? := by
  intro cs saying rest h
  obtain ⟨⟨inside, rest'⟩, h, heq⟩ := Option.bind_eq_some_iff.mp h
  obtain ⟨mid, h₁, h₂⟩ := Option.bind_eq_some_iff.mp h
  obtain ⟨rfl, rfl⟩ := Prod.mk.inj (Option.some.inj heq)
  exact ⟨_, append_of_marked h₁ h₂, spelling_echo (.escapedEcho (Text.firstMark_of_cut? h₂))⟩

/-- What is read as host code is spelled so. -/
theorem spells_host? : Spells host? := by
  intro cs saying rest h
  obtain ⟨⟨printed, mid⟩, h₁, h⟩ := Option.bind_eq_some_iff.mp h
  obtain ⟨⟨code, rest'⟩, h₂, heq⟩ := Option.bind_eq_some_iff.mp h
  obtain ⟨rfl, rfl⟩ := Prod.mk.inj (Option.some.inj heq)
  unfold hostOpening? at h₁
  split at h₁
  · rename_i c cs' hmark
    split at h₁
    · rename_i hblank
      obtain ⟨rfl, rfl⟩ := Prod.mk.inj (Option.some.inj h₁)
      refine ⟨_, append_of_marked hmark h₂, ?_⟩
      -- The blank is no start of the mark, so it is the start of the code.
      have happend := Text.append_of_cut? h₂
      cases code with
      | nil =>
        have hc : '?' = c := by simpa using congrArg List.head? happend
        rw [← hc] at hblank
        exact absurd hblank (by decide)
      | cons d code =>
        obtain rfl : d = c := by simpa using congrArg List.head? happend
        exact .hostCode (Text.firstMark_of_cut? h₂) hblank
    · cases h₁
  · cases h₁
  · obtain ⟨mid', hmark, heq⟩ := Option.map_eq_some_iff.mp h₁
    obtain ⟨rfl, rfl⟩ := Prod.mk.inj heq
    exact ⟨_, append_of_marked hmark h₂, .hostEcho (Text.firstMark_of_cut? h₂)⟩

/-! ## Reading directives -/

/-- The separating word of a loop stands between blanks, in some case of letters. -/
theorem exists_of_asWord? {cs rest : List Char} (h : asWord? cs = some rest) :
    ∃ before word after, (Blanks before ∧ before ≠ []) ∧ Folded ['a', 's'] word ∧
      (Blanks after ∧ after ≠ []) ∧ before ++ (word ++ (after ++ rest)) = cs := by
  unfold asWord? at h
  split at h
  · cases h
  · rename_i c cs'
    split at h
    · rename_i hc
      split at h
      · rename_i word d rest' hword
        split at h
        · rename_i hd
          obtain rfl := Option.some.inj h
          refine ⟨_, word, _, ⟨blanks_takeWhile (c :: cs'), ?_⟩, folded_of_foldedWord? hword,
            ⟨blanks_takeWhile (d :: rest'), ?_⟩, ?_⟩
          · simp [hc]
          · simp [hd]
          · have hdrop : (d :: rest').dropWhile isBlank = rest'.dropWhile isBlank := by
              rw [List.dropWhile_cons, if_pos hd]
            rw [← hdrop, List.takeWhile_append_dropWhile, Text.append_of_foldedWord? hword,
              List.takeWhile_append_dropWhile]
        · cases h
      · cases h
    · cases h

/-- What is read as the name of a variable is an identifier. -/
theorem isIdentifier_of_variableName? {cs name rest : List Char}
    (h : variableName? cs = some (name, rest)) : isIdentifier name = true := by
  unfold variableName? at h
  split at h
  · exact (Expression.isIdentifier_of_identifier? h).1
  · cases h

/-- An item variable alone gives the variables of a loop without a key. -/
theorem loopVariables_of_itemVariable? {cs item : List Char} (h : itemVariable? cs = some item) :
    LoopVariables none item cs := by
  unfold itemVariable? at h
  split at h
  · rename_i name rest hname
    split at h
    · rename_i hblanks
      obtain rfl := Option.some.inj h
      rw [← Expression.append_of_variableName? hname]
      exact .item (isIdentifier_of_variableName? hname) (List.all_eq_true.mp hblanks)
    · cases h
  · cases h

/-- What is read as the variables of a loop is spelled so. -/
theorem loopVariables_of_loopVariables? {cs item : List Char} {key : Option (List Char)}
    (h : loopVariables? cs = some (key, item)) : LoopVariables key item cs := by
  unfold loopVariables? at h
  split at h
  · rename_i key' rest hkey
    split at h
    · rename_i item' hitem
      obtain ⟨rfl, rfl⟩ := Prod.mk.inj (Option.some.inj h)
      unfold keyVariable? at hkey
      split at hkey
      · rename_i name rest' hname
        split at hkey
        · rename_i after harrow
          obtain ⟨rfl, rfl⟩ := Prod.mk.inj (Option.some.inj hkey)
          rw [← Expression.append_of_variableName? hname,
            ← List.takeWhile_append_dropWhile (p := isBlank) (l := rest'), harrow,
            ← List.takeWhile_append_dropWhile (p := isBlank) (l := after)]
          exact .keyed (isIdentifier_of_variableName? hname) (blanks_takeWhile _)
            (blanks_takeWhile _) (loopVariables_of_itemVariable? hitem)
        · cases hkey
      · cases hkey
    · cases h
  · obtain ⟨item', hitem, heq⟩ := Option.map_eq_some_iff.mp h
    obtain ⟨rfl, rfl⟩ := Prod.mk.inj heq
    exact loopVariables_of_itemVariable? hitem

/-- The head of a loop is split at the separating word, with a collection in front of it. -/
theorem exists_of_splitLoop? :
    ∀ {cs collection item : List Char} {key : Option (List Char)},
      splitLoop? cs = some (collection, key, item) →
        collection ≠ [] ∧ ∃ before word after source, (Blanks before ∧ before ≠ []) ∧
          Folded ['a', 's'] word ∧ (Blanks after ∧ after ≠ []) ∧ LoopVariables key item source ∧
          collection ++ (before ++ (word ++ (after ++ source))) = cs
  | [], _, _, _, h => by cases h
  | c :: cs, collection, item, key, h => by
    simp only [splitLoop?] at h
    split at h
    · rename_i found hfound
      obtain ⟨source, hword, hvariables⟩ := Option.bind_eq_some_iff.mp hfound
      obtain ⟨rfl, rfl⟩ := Prod.mk.inj (Option.some.inj h)
      obtain ⟨before, word, after, hbefore, hfolded, hafter, rfl⟩ := exists_of_asWord? hword
      exact ⟨List.cons_ne_nil _ _, before, word, after, source, hbefore, hfolded, hafter,
        loopVariables_of_loopVariables? hvariables, rfl⟩
    · obtain ⟨⟨collection', key', item'⟩, h', heq⟩ := Option.map_eq_some_iff.mp h
      simp only [Prod.mk.injEq] at heq
      obtain ⟨rfl, rfl, rfl⟩ := heq
      obtain ⟨-, before, word, after, source, hbefore, hfolded, hafter, hvariables, happend⟩ :=
        exists_of_splitLoop? h'
      exact ⟨List.cons_ne_nil _ _, before, word, after, source, hbefore, hfolded, hafter,
        hvariables, by rw [List.cons_append, happend]⟩

/-- What is read as the head of a loop is spelled as one. -/
theorem loopText_of_loopHead? {arguments : List Char} {head : LoopHead}
    (h : loopHead? arguments = some head) : LoopText head arguments := by
  obtain ⟨⟨collection, key, item⟩, hsplit, rfl⟩ := Option.map_eq_some_iff.mp h
  obtain ⟨hcollection, before, word, after, source, hbefore, hword, hafter, hvariables, rfl⟩ :=
    exists_of_splitLoop? hsplit
  exact .mk hcollection hbefore hword hafter hvariables

/-- What the keyword of a directive with arguments is spelled like. -/
theorem exists_of_argumentKeyword? {cs keyword rest : List Char}
    (h : argumentKeyword? cs = some (keyword, rest)) :
    ∃ found, found ++ rest = cs ∧
      ((found = keyword ∧ ∃ word ∈ argumentKeywords, word.toList = keyword) ∨
        (Folded "elseif".toList found ∧ lower found = keyword)) := by
  unfold argumentKeyword? at h
  rcases Option.or_eq_some_iff.mp h with h | ⟨-, h⟩
  · obtain ⟨word, hword, h⟩ := List.exists_of_findSome?_eq_some h
    obtain ⟨rest', hmark, heq⟩ := Option.map_eq_some_iff.mp h
    obtain ⟨rfl, rfl⟩ := Prod.mk.inj heq
    exact ⟨_, Text.append_of_mark? hmark, .inl ⟨rfl, word, hword, rfl⟩⟩
  · obtain ⟨⟨found, rest'⟩, hfound, heq⟩ := Option.map_eq_some_iff.mp h
    obtain ⟨rfl, rfl⟩ := Prod.mk.inj heq
    exact ⟨found, Text.append_of_foldedWord? hfound, .inr ⟨folded_of_foldedWord? hfound, rfl⟩⟩

/-- Lowering the case of a text makes it no shorter. -/
theorem length_le_length_lower (cs : List Char) : cs.length ≤ (lower cs).length := by
  induction cs with
  | nil => exact Nat.le_refl 0
  | cons c cs ih =>
    have hchar : 1 ≤ (Text.lowerChar c).length := by
      unfold Text.lowerChar
      split
      · exact Nat.le_succ 1
      · split <;> exact Nat.le_refl 1
    rw [lower, List.flatMap_cons, List.length_append, List.length_cons]
    exact Nat.add_comm 1 _ ▸ Nat.add_le_add hchar ih

/-- What a directive says is written as the directive. -/
theorem spelling_directive {keyword found arguments source : List Char}
    (hkeyword : (found = keyword ∧ ∃ word ∈ argumentKeywords, word.toList = keyword) ∨
      (Folded "elseif".toList found ∧ lower found = keyword))
    (h : Invoked found arguments source) : Spelling (directive keyword arguments) source := by
  rcases hkeyword with ⟨rfl, word, hword, rfl⟩ | ⟨hfolded, rfl⟩
  · have hcases : word = "if" ∨ word = "each" ∨ word = "has" ∨
        word ∈ ["checked", "selected", "disabled"] := by
      simpa [argumentKeywords] using hword
    rcases hcases with rfl | rfl | rfl | hkind
    · exact .conditional h
    · unfold directive
      rw [if_neg (by decide), if_neg (by decide), if_pos rfl]
      split
      · rename_i head hhead
        exact .loop h (loopText_of_loopHead? hhead)
      · exact .text _
    · exact .existence h
    · have hdirective : directive word.toList arguments =
          .node (.flag word (String.ofList arguments)) := by
        simp only [List.mem_cons, List.not_mem_nil, or_false] at hkind
        rcases hkind with rfl | rfl | rfl <;> rfl
      rw [hdirective]
      exact .flag hkind h
  · by_cases hlower : lower found = "elseif".toList
    · rw [directive, if_pos hlower]
      exact .nextCondition hfolded hlower h
    · have hdirective : directive (lower found) arguments =
          .node (.flag (String.ofList (lower found)) (String.ofList arguments)) := by
        have hfound : found.length = 6 := Text.length_of_foldedWord? hfolded
        have hlength := length_le_length_lower found
        have hne : ∀ word : List Char, word.length < 6 → lower found ≠ word := by
          rintro word hword rfl
          omega
        rw [directive, if_neg hlower, if_neg (hne _ (by decide)), if_neg (hne _ (by decide)),
          if_neg (hne _ (by decide))]
      rw [hdirective]
      exact .foldedFlag hfolded hlower h

/-- What is read as a directive with an argument is spelled as one. -/
theorem spells_argumentDirective? : Spells argumentDirective? := by
  intro cs saying rest h
  obtain ⟨⟨keyword, mid⟩, h₁, h⟩ := Option.bind_eq_some_iff.mp h
  obtain ⟨start, hmark, hkeyword⟩ := Option.bind_eq_some_iff.mp h₁
  obtain ⟨inside, h₂, h⟩ := Option.bind_eq_some_iff.mp h
  obtain ⟨found, hfound, hcase⟩ := exists_of_argumentKeyword? hkeyword
  have happend : '@' :: (found ++ (mid.takeWhile isBlank ++ '(' :: inside)) = cs := by
    have hparen : '(' :: inside = mid.dropWhile isBlank := Text.append_of_mark? h₂
    rw [hparen, List.takeWhile_append_dropWhile, hfound]
    exact Text.append_of_mark? hmark
  split at h
  · obtain ⟨rfl, rfl⟩ := Prod.mk.inj (Option.some.inj h)
    exact ⟨'@' :: (found ++ (mid.takeWhile isBlank ++ ['('])), by rw [← happend]; simp, .text _⟩
  · rename_i close hclose
    obtain ⟨hgroup, hinside⟩ := Expression.isGroup_take hclose
    have hsource :
      '@' :: (found ++ (mid.takeWhile isBlank ++ '(' :: (inside.take close ++ [')']))) ++
        inside.drop (close + 1) = cs := by
      rw [← hinside] at happend
      rw [← happend]
      simp [hinside]
    split at h
    · obtain ⟨rfl, rfl⟩ := Prod.mk.inj (Option.some.inj h)
      exact ⟨_, hsource, .text _⟩
    · rename_i c arguments htrim
      obtain ⟨rfl, rfl⟩ := Prod.mk.inj (Option.some.inj h)
      refine ⟨_, hsource, spelling_directive hcase ?_⟩
      rw [← htrim]
      exact .mk (blanks_takeWhile mid) hgroup (by rw [htrim]; exact List.cons_ne_nil _ _)

/-- A keyword without an argument is spelled in some case behind an at sign. -/
theorem exists_of_plainKeyword? {word : String} {cs found rest : List Char}
    (h : plainKeyword? word cs = some (found, rest)) :
    ∃ keyword, Folded word.toList keyword ∧ found = lower keyword ∧
      '@' :: keyword ++ rest = cs := by
  unfold plainKeyword? at h
  split at h
  · rename_i keyword rest' h'
    obtain ⟨mid, hmark, hword⟩ := Option.bind_eq_some_iff.mp h'
    split at h
    · obtain ⟨rfl, rfl⟩ := Prod.mk.inj (Option.some.inj h)
      refine ⟨keyword, folded_of_foldedWord? hword, rfl, ?_⟩
      rw [List.cons_append, Text.append_of_foldedWord? hword]
      exact Text.append_of_mark? hmark
    · cases h
  · cases h

/-- What is read as an alternative is spelled as one. -/
theorem spells_alternative? : Spells alternative? := by
  intro cs saying rest h
  obtain ⟨⟨found, rest'⟩, h', heq⟩ := Option.map_eq_some_iff.mp h
  obtain ⟨rfl, rfl⟩ := Prod.mk.inj heq
  obtain ⟨keyword, hkeyword, -, happend⟩ := exists_of_plainKeyword? h'
  exact ⟨_, happend, .alternative hkeyword⟩

/-- What is read as a closing directive is spelled as one. -/
theorem spells_closingDirective? : Spells closingDirective? := by
  intro cs saying rest h
  obtain ⟨⟨found, rest'⟩, h', heq⟩ := Option.map_eq_some_iff.mp h
  obtain ⟨rfl, rfl⟩ := Prod.mk.inj heq
  obtain ⟨closer, hcloser, h⟩ := List.exists_of_findSome?_eq_some h'
  obtain ⟨keyword, hkeyword, rfl, happend⟩ := exists_of_plainKeyword? h
  exact ⟨_, happend, .closing hcloser hkeyword⟩

/-! ## Reading tags -/

/-- What is read as the opening tag of a slot is spelled as one. -/
theorem spells_slotOpening? : Spells slotOpening? := by
  intro cs saying rest h
  obtain ⟨mid, hmark, h⟩ := Option.bind_eq_some_iff.mp h
  split at h
  · cases h
  · rename_i c name htake
    obtain ⟨rest', hend, heq⟩ := Option.bind_eq_some_iff.mp h
    obtain ⟨rfl, rfl⟩ := Prod.mk.inj (Option.some.inj heq)
    obtain ⟨blanks, hblanks, happend⟩ := exists_of_tagEnd? hend
    have hname : isSlotName (c :: name) = true := by
      rw [isSlotName, ← htake, List.all_takeWhile]
    refine ⟨_, ?_, .slotOpening hname hblanks⟩
    · rw [← Text.append_of_mark? hmark,
        ← List.takeWhile_append_dropWhile (p := isSlotNameChar) (l := mid), htake, ← happend]
      simp

/-- What is read as the closing tag of a slot is spelled as one. -/
theorem spells_slotClosing? : Spells slotClosing? := by
  intro cs saying rest h
  obtain ⟨rest', h, heq⟩ := Option.bind_eq_some_iff.mp h
  obtain ⟨mid, hmark, hend⟩ := Option.bind_eq_some_iff.mp h
  obtain ⟨rfl, rfl⟩ := Prod.mk.inj (Option.some.inj heq)
  obtain ⟨blanks, hblanks, happend⟩ := exists_of_tagEnd? hend
  refine ⟨_, ?_, .slotClosing hblanks⟩
  rw [← Text.append_of_mark? hmark, ← happend]
  simp

/-- What is read as a component's name is the name of a tag, up to where it ends. -/
theorem isTagName_of_openingName? {cs name rest : List Char}
    (h : openingName? cs = some (name, rest)) :
    isTagName name = true ∧ name ++ rest = cs ∧ EndsName rest := by
  unfold openingName? at h
  split at h
  · rename_i name' c rest' hname
    split at h
    · rename_i hc
      obtain ⟨rfl, rfl⟩ := Prod.mk.inj (Option.some.inj h)
      obtain ⟨hname, -, happend⟩ := isTagName_of_tagName? hname
      exact ⟨hname, happend, c, rfl, hc⟩
    · cases h
  · cases h

/-- What is read as the opening tag of a component is spelled as one. -/
theorem spells_openingTag? : Spells openingTag? := by
  intro cs saying rest h
  obtain ⟨⟨name, mid⟩, h₁, h⟩ := Option.bind_eq_some_iff.mp h
  obtain ⟨start, hmark, hopening⟩ := Option.bind_eq_some_iff.mp h₁
  obtain ⟨⟨source, closed, rest'⟩, hbody, h⟩ := Option.bind_eq_some_iff.mp h
  obtain ⟨hsource, hother⟩ := tagBody?_append hbody
  obtain ⟨hname, hstart, hends⟩ := isTagName_of_openingName? hopening
  have happend : "<x-".toList ++ (name ++ (source ++ tagMark closed)) ++ rest' = cs := by
    rw [← Text.append_of_mark? hmark, ← hstart, ← hsource]
    simp
  have hend : EndsName (source ++ tagMark closed) := by
    rwa [← hsource, EndsName, head?_append_tagMark] at hends
  have hclosed : IsTagBody source closed := by
    have := hother []
    rwa [List.append_nil] at this
  simp only at h
  split at h
  · obtain ⟨rfl, rfl⟩ := Prod.mk.inj (Option.some.inj h)
    exact ⟨_, happend, .text _⟩
  · rename_i hslot
    cases closed with
    | false =>
      obtain ⟨rfl, rfl⟩ := Prod.mk.inj (Option.some.inj h)
      exact ⟨_, happend, .openingTag hname hslot hend hclosed⟩
    | true =>
      obtain ⟨rfl, rfl⟩ := Prod.mk.inj (Option.some.inj h)
      exact ⟨_, happend, .closedTag hname hslot hend hclosed⟩

/-- What is read as the closing tag of a component is spelled as one. -/
theorem spells_closingTag? : Spells closingTag? := by
  intro cs saying rest h
  obtain ⟨⟨tag, mid⟩, h₁, h⟩ := Option.bind_eq_some_iff.mp h
  obtain ⟨start, hmark, htag⟩ := Option.bind_eq_some_iff.mp h₁
  obtain ⟨rest', hend, heq⟩ := Option.bind_eq_some_iff.mp h
  obtain ⟨rfl, rfl⟩ := Prod.mk.inj (Option.some.inj heq)
  obtain ⟨hname, -, hstart⟩ := isTagName_of_tagName? htag
  obtain ⟨blanks, hblanks, happend⟩ := exists_of_tagEnd? hend
  refine ⟨_, ?_, .closingTag hname hblanks⟩
  rw [← Text.append_of_mark? hmark, ← hstart, ← happend]
  simp

/-! ## All lexemes -/

/-- Two readers tried one after the other find what is spelled by the rules, if each of them
does. -/
theorem Spells.or {f g : List Char → Option (Saying × List Char)} (hf : Spells f) (hg : Spells g) :
    Spells fun cs => (f cs).or (g cs) := by
  intro cs saying rest h
  rcases Option.or_eq_some_iff.mp h with h | ⟨-, h⟩
  · exact hf h
  · exact hg h

/-- What is read as a lexeme is spelled as one. -/
theorem spells_saying? : Spells saying? :=
  spells_comment?.or <| spells_rawEcho?.or <| spells_escapedEcho?.or <|
    spells_host?.or <| spells_argumentDirective?.or <| spells_alternative?.or <|
      spells_closingDirective?.or <| spells_slotOpening?.or <|
        spells_slotClosing?.or <| spells_openingTag?.or spells_closingTag?

/-- Putting a character in front leaves lexemes spelled as they say. -/
theorem spelling_of_mem_consChar (c : Char) {ls : List Lexeme}
    (h : ∀ l ∈ ls, Spelling l.saying l.raw.toList) :
    ∀ l ∈ consChar c ls, Spelling l.saying l.raw.toList := by
  fun_cases consChar c ls with
  | case1 raw rest => exact List.forall_mem_cons.mpr ⟨.text _, (List.forall_mem_cons.mp h).2⟩
  | case2 => exact List.forall_mem_cons.mpr ⟨.text _, h⟩

/-- **A lexeme of a template is written by the rules.** -/
theorem spelling_of_mem_lexemes {template : String} {l : Lexeme} (h : l ∈ lexemes template) :
    Spelling l.saying l.raw.toList := by
  have key : ∀ cs, ∀ l ∈ lexemesOf cs, Spelling l.saying l.raw.toList := by
    intro cs
    fun_induction lexemesOf cs with
    | case1 => exact fun l hl => absurd hl List.not_mem_nil
    | case2 c cs l rest hl ih =>
      refine List.forall_mem_cons.mpr ⟨?_, ih⟩
      have happend := append_of_lexeme? hl
      obtain ⟨⟨saying, rest'⟩, hsaying, heq⟩ := Option.map_eq_some_iff.mp hl
      obtain ⟨rfl, rfl⟩ := Prod.mk.inj heq
      obtain ⟨source, hsource, hspelling⟩ := spells_saying? hsaying
      rwa [List.append_cancel_right (happend.trans hsource.symm)]
    | case3 c cs hnone ih =>
      exact spelling_of_mem_consChar c ih
  exact key _ l h

end ViewCompiler.Template
