import Mathlib.Data.List.Chain
import ViewCompiler.Proofs.Template.Canonical

/-!
# Reading the head of a loop

The arguments of a loop are split at the first `as` that variables follow to the end. A collection
may hold such a word itself, even before a variable: what follows it there goes on to the printed
`as`, which is no part of the variables of a loop (`LoopVariables.unspaced`). So a printed head is
read back (`loopHead?_written`).
-/

namespace ViewCompiler.Template

open Text (isBlank trim foldedWord? foldsTo IsTrimmed)
open Expression (IsGroup StopsAt isIdentifier isIdentifierChar identifier? variableName?)

/-! ## Variables -/

/-- No `a` stands behind a space. -/
def Unspaced (c d : Char) : Prop := c = ' ' → d ≠ 'a'

/-- Without a space none stands in front of an `a`. -/
theorem isChain_unspaced_of_notMem {cs : List Char} (h : ' ' ∉ cs) : cs.IsChain Unspaced := by
  induction cs with
  | nil => exact .nil
  | cons c cs ih =>
    rw [List.mem_cons, not_or] at h
    refine List.isChain_cons.mpr ⟨fun d _ hc => absurd hc.symm h.1, ih h.2⟩

/-- Among blanks no space stands in front of an `a`. -/
theorem isChain_unspaced_of_blanks {cs : List Char} (h : Blanks cs) : cs.IsChain Unspaced := by
  induction cs with
  | nil => exact .nil
  | cons c cs ih =>
    obtain ⟨-, hcs⟩ := List.forall_mem_cons.mp h
    refine List.isChain_cons.mpr ⟨fun d hd _ heq => ?_, ih hcs⟩
    have hblank := hcs d (List.mem_of_mem_head? hd)
    rw [heq] at hblank
    exact absurd hblank (by decide)

/-- An identifier holds no space. -/
theorem space_notMem_of_isIdentifier {name : List Char} (h : isIdentifier name = true) :
    ' ' ∉ name := by
  intro hmem
  have hspace := Expression.isIdentifierChar_of_mem h hmem
  exact absurd hspace (by decide)

/-- Blanks and a text that starts with no `a`. -/
theorem isChain_unspaced_append {blanks rest : List Char} (hblanks : Blanks blanks)
    (hrest : rest.IsChain Unspaced) (hhead : rest.head? ≠ some 'a') :
    (blanks ++ rest).IsChain Unspaced := by
  refine (isChain_unspaced_of_blanks hblanks).append hrest fun c _ d hd _ heq => hhead ?_
  rw [← heq]
  exact hd

/-- **In the variables of a loop, no `a` stands behind a space.** -/
theorem LoopVariables.unspaced {key : Option (List Char)} {item source : List Char}
    (h : LoopVariables key item source) : source.IsChain Unspaced ∧ source.head? = some '$' := by
  have hname : ∀ {name rest : List Char}, isIdentifier name = true → rest.IsChain Unspaced →
      ('$' :: (name ++ rest)).IsChain Unspaced := by
    intro name rest hidentifier hrest
    have hspace : ' ' ∉ '$' :: name := by
      rw [List.mem_cons, not_or]
      exact ⟨by decide, space_notMem_of_isIdentifier hidentifier⟩
    refine (isChain_unspaced_of_notMem hspace).append hrest fun c hc d _ heq => ?_
    rw [heq] at hc
    exact absurd (List.mem_of_mem_getLast? hc) hspace
  induction h with
  | item hitem hblanks => exact ⟨hname hitem (isChain_unspaced_of_blanks hblanks), rfl⟩
  | keyed hkey hbefore hafter h ih =>
    refine ⟨hname hkey (isChain_unspaced_append hbefore ?_ (by simp)), rfl⟩
    have hafter := isChain_unspaced_append hafter ih.1 (by rw [ih.2]; decide)
    refine List.isChain_cons.mpr ⟨fun d _ heq => absurd heq (by decide), ?_⟩
    exact List.isChain_cons.mpr ⟨fun d _ heq => absurd heq (by decide), hafter⟩

/-- No variables are read where the word in front of them is still to come. -/
theorem loopVariables?_eq_none {before : List Char} (rest : List Char)
    (h : before = [] ∨ before.getLast? = some ' ') :
    loopVariables? (before ++ 'a' :: rest) = none := by
  rw [Option.eq_none_iff_forall_ne_some]
  rintro ⟨key, item⟩ hread
  obtain ⟨hchain, hhead⟩ := (loopVariables_of_loopVariables? hread).unspaced
  rcases h with rfl | hlast
  · cases hhead
  · obtain ⟨start, rfl⟩ := List.getLast?_eq_some_iff.mp hlast
    rw [List.append_assoc] at hchain
    have hspace := (List.isChain_append.mp hchain).2.1
    exact (List.isChain_cons.mp hspace).1 'a' rfl rfl rfl

/-! ## The first split -/

/-- Dropping leading blanks of a text that does not end in one leaves what follows it. -/
theorem dropWhile_append_of_getLast? {cs : List Char} (hne : cs ≠ [])
    (hlast : ∀ c ∈ cs.getLast?, isBlank c = false) (rest : List Char) :
    (cs ++ rest).dropWhile isBlank = cs.dropWhile isBlank ++ rest ∧ cs.dropWhile isBlank ≠ [] ∧
      ∀ c ∈ (cs.dropWhile isBlank).getLast?, isBlank c = false := by
  induction cs with
  | nil => exact absurd rfl hne
  | cons c cs ih =>
    cases hc : isBlank c with
    | false => simpa [List.dropWhile_cons, hc] using hlast
    | true =>
      have hcs : cs ≠ [] := by
        rintro rfl
        rw [hlast c rfl] at hc
        cases hc
      rw [List.getLast?_cons_of_ne_nil hcs] at hlast
      simpa [List.dropWhile_cons, hc] using ih hcs hlast

/-- Where the separating word is read it stands between blanks, in any case of letters. -/
theorem exists_foldedWord?_of_asWord? {cs source : List Char} (h : asWord? cs = some source) :
    ∃ found d rest, foldedWord? ['a', 's'] (cs.dropWhile isBlank) = some (found, d :: rest) ∧
      isBlank d = true ∧ source = rest.dropWhile isBlank := by
  unfold asWord? at h
  split at h
  · cases h
  · split at h
    · split at h
      · rename_i found d rest hword
        split at h
        · rename_i hd
          exact ⟨found, d, rest, hword, hd, (Option.some.inj h).symm⟩
        · cases h
      · cases h
    · cases h

/-- No word inside a collection is the one before the variables. -/
theorem asWord?_bind_eq_none {cs tail names : List Char} (hne : cs ≠ [])
    (hlast : ∀ c ∈ cs.getLast?, isBlank c = false)
    (htail : tail = ' ' :: 'a' :: 's' :: ' ' :: names) :
    (asWord? (cs ++ tail)).bind loopVariables? = none := by
  rw [Option.bind_eq_none_iff]
  intro source hsource
  obtain ⟨hdrop, hne', hlast'⟩ := dropWhile_append_of_getLast? hne hlast tail
  obtain ⟨found, d, rest, hword, hd, rfl⟩ := exists_foldedWord?_of_asWord? hsource
  rw [hdrop] at hword
  generalize cs.dropWhile isBlank = inside at hword hne' hlast'
  rcases inside with _ | ⟨a, _ | ⟨s, inside⟩⟩
  · exact absurd rfl hne'
  · simp [htail, foldedWord?, foldsTo] at hword
  · have hrest : inside ++ tail = d :: rest := by
      cases ha : foldsTo 'a' a <;> cases hs : foldsTo 's' s <;>
        simp_all [foldedWord?]
    cases inside with
    | nil =>
      rw [htail, List.nil_append] at hrest
      obtain ⟨rfl, rfl⟩ := List.cons.inj hrest
      exact loopVariables?_eq_none ('s' :: ' ' :: names) (.inl rfl)
    | cons e inside =>
      -- The collection goes on behind the word, up to the blank before the printed one.
      obtain ⟨rfl, rfl⟩ := List.cons.inj hrest
      have hinside : inside ≠ [] := by
        rintro rfl
        rw [hlast' e rfl] at hd
        cases hd
      rw [List.getLast?_cons_cons, List.getLast?_cons_cons,
        List.getLast?_cons_of_ne_nil hinside] at hlast'
      obtain ⟨hdrop', -, -⟩ := dropWhile_append_of_getLast? hinside hlast' tail
      have hspace : loopVariables?
          (inside.dropWhile isBlank ++ [' '] ++ 'a' :: 's' :: ' ' :: names) = none :=
        loopVariables?_eq_none _ (.inr List.getLast?_concat)
      rw [List.append_assoc] at hspace
      show loopVariables? ((inside ++ tail).dropWhile isBlank) = none
      rw [hdrop', htail]
      exact hspace

/-- The arguments of a loop are split at the printed word. -/
theorem splitLoop?_append {collection tail names : List Char} (hne : collection ≠ [])
    (hlast : ∀ c ∈ collection.getLast?, isBlank c = false)
    {found : Option (List Char) × List Char} (hnames : loopVariables? names = some found)
    (hhead : StopsAt isBlank names) (htail : tail = ' ' :: 'a' :: 's' :: ' ' :: names) :
    splitLoop? (collection ++ tail) = some (collection, found) := by
  induction collection with
  | nil => exact absurd rfl hne
  | cons c cs ih =>
    rw [List.cons_append, splitLoop?]
    by_cases hcs : cs = []
    · have hword : asWord? tail = some names := by
        cases names with
        | nil => cases hnames
        | cons d names =>
          have hd := Expression.stopsAt_cons.mp hhead
          have hspace : isBlank ' ' = true := by decide
          have ha : isBlank 'a' = false := by decide
          simp [htail, asWord?, foldedWord?, foldsTo, hspace, ha, hd]
      rw [hcs, List.nil_append, hword, Option.bind_some, hnames]
    · rw [List.getLast?_cons_of_ne_nil hcs] at hlast
      rw [asWord?_bind_eq_none hcs hlast htail, ih hcs hlast]
      rfl

/-! ## The names -/

/-- The written item variable is read back. -/
theorem itemVariable?_written {item : List Char} (h : isIdentifier item = true) :
    itemVariable? ('$' :: item) = some item := by
  have hread : variableName? ('$' :: item) = some (item, []) := by
    have := Expression.identifier?_append h (Expression.stopsAt_nil _)
    rwa [List.append_nil] at this
  rw [itemVariable?, hread]
  rfl

/-- The written loop variables are read back, with the key or without. -/
theorem loopVariables?_written {head : LoopHead} (h : head.Canonical) :
    loopVariables? head.writtenNames = some (head.key.map String.toList, head.item.toList) := by
  have hitem := itemVariable?_written h.item
  cases hkey : head.key with
  | none =>
    have hread : variableName? ('$' :: head.item.toList) = some (head.item.toList, []) := by
      have := Expression.identifier?_append h.item (Expression.stopsAt_nil _)
      rwa [List.append_nil] at this
    have hnone : keyVariable? ('$' :: head.item.toList) = none := by
      rw [keyVariable?, hread]
      rfl
    simp only [LoopHead.writtenNames, hkey, loopVariables?, hnone, hitem, Option.map_some,
      Option.map_none]
  | some key =>
    have hread : variableName? ('$' :: (key.toList ++ (" => $".toList ++ head.item.toList))) =
        some (key.toList, " => $".toList ++ head.item.toList) :=
      Expression.identifier?_append (h.key key hkey) (Expression.stopsAt_cons.mpr (by decide))
    have hsome : keyVariable? ('$' :: (key.toList ++ (" => $".toList ++ head.item.toList))) =
        some (key.toList, '$' :: head.item.toList) := by
      rw [keyVariable?, hread]
      rfl
    simp only [LoopHead.writtenNames, hkey, loopVariables?, hsome, hitem, Option.map_some]

/-- The written loop variables do not start with a blank. -/
theorem stopsAt_writtenNames (head : LoopHead) : StopsAt isBlank head.writtenNames := by
  unfold LoopHead.writtenNames
  split <;> exact Expression.stopsAt_cons.mpr (by decide)

/-- **The head of a loop is read back.** -/
theorem loopHead?_written {head : LoopHead} (h : head.Canonical) :
    loopHead? head.written = some head := by
  have hlast : ∀ c ∈ head.collection.toList.getLast?, isBlank c = false :=
    h.collection.trimmed.isBlank_getLast
  have hsplit : splitLoop? head.written = _ :=
    splitLoop?_append h.collection.ne_nil hlast (loopVariables?_written h)
      (stopsAt_writtenNames head) rfl
  have htrim : trim head.collection.toList = head.collection.toList := h.collection.trimmed
  have hkey : (head.key.map String.toList).map String.ofList = head.key := by
    cases head.key with
    | none => rfl
    | some key => rw [Option.map_some, Option.map_some, String.ofList_toList]
  rw [loopHead?, hsplit, Option.map_some]
  simp only [htrim, hkey, String.ofList_toList]

/-- The characters of an identifier open and close nothing. -/
theorem isPlainChar_of_isIdentifier {name : List Char} (h : isIdentifier name = true) :
    ∀ c ∈ name, Expression.isPlainChar c = true := by
  intro c hc
  have hchar := Expression.isIdentifierChar_of_mem h hc
  cases hplain : Expression.isPlainChar c with
  | true => rfl
  | false =>
    have hcases : c = '\'' ∨ c = '"' ∨ c = '(' ∨ c = ')' := by
      simp only [Expression.isPlainChar, Expression.isQuote] at hplain
      grind
    rcases hcases with rfl | rfl | rfl | rfl <;> exact absurd hchar (by decide)

/-- The characters of the written loop variables open and close nothing. -/
theorem isPlainChar_of_mem_writtenNames {head : LoopHead} (h : head.Canonical) :
    ∀ c ∈ head.writtenNames, Expression.isPlainChar c = true := by
  have hitem := isPlainChar_of_isIdentifier h.item
  have hsigil : Expression.isPlainChar '$' = true := by decide
  unfold LoopHead.writtenNames
  split
  · rename_i key hkey
    have harrow : ∀ c ∈ " => $".toList, Expression.isPlainChar c = true :=
      Expression.forall_mem_of_all rfl
    refine List.forall_mem_cons.mpr ⟨hsigil, List.forall_mem_append.mpr ⟨?_, ?_⟩⟩
    · exact isPlainChar_of_isIdentifier (h.key key hkey)
    · exact List.forall_mem_append.mpr ⟨harrow, hitem⟩
  · exact List.forall_mem_cons.mpr ⟨hsigil, hitem⟩

/-- The head of a loop ends as its item variable does. -/
theorem getLast?_written (head : LoopHead) (h : head.item.toList ≠ []) :
    head.written.getLast? = head.item.toList.getLast? := by
  have hnames : head.writtenNames.getLast? = head.item.toList.getLast? := by
    unfold LoopHead.writtenNames
    split
    · rw [List.getLast?_cons_of_ne_nil (by simp), List.getLast?_append_of_ne_nil _ (by simp),
        List.getLast?_append_of_ne_nil _ h]
    · exact List.getLast?_cons_of_ne_nil h
  have hne : head.writtenNames ≠ [] := by
    unfold LoopHead.writtenNames
    split <;> exact List.cons_ne_nil _ _
  rw [LoopHead.written, List.getLast?_append_of_ne_nil _ (by simp),
    List.getLast?_append_of_ne_nil _ hne, hnames]

/-- The head of a loop can be the argument of a directive. -/
theorem isArgument_written {head : LoopHead} (h : head.Canonical) : IsArgument head.written := by
  have hplain : ∀ c ∈ " as ".toList ++ head.writtenNames, Expression.isPlainChar c = true :=
    List.forall_mem_append.mpr
      ⟨Expression.forall_mem_of_all rfl, isPlainChar_of_mem_writtenNames h⟩
  have hitem : head.item.toList ≠ [] := by
    intro hnil
    have := h.item
    rw [hnil] at this
    cases this
  refine ⟨Text.isTrimmed_of_ends ?_ ?_, ?_, h.collection.group.append_plain hplain⟩
  · intro c hc
    obtain ⟨d, cs, hcons⟩ := List.exists_cons_of_ne_nil h.collection.ne_nil
    have htrim := h.collection.trimmed
    rw [LoopHead.written, hcons] at hc
    rw [hcons] at htrim
    obtain rfl : d = c := by simpa using hc
    exact htrim.isBlank_head
  · rw [getLast?_written head hitem]
    exact h.item_getLast
  · exact fun hnil => h.collection.ne_nil (List.append_eq_nil_iff.mp hnil).1

end ViewCompiler.Template
