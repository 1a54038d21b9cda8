/-!
# Words without regard to case

Keywords of the template language may be written in any case. Two letters are the same here when
Unicode's simple case folding relates them, so a few letters outside ASCII stand for an ASCII one:
the long s for `s`, the dotted capital and the dotless small i for `i`, the Kelvin sign for `k`.
Lower-casing a matched word does not undo this: the long s and the dotless i are lower-case letters
already, and the dotted capital becomes an `i` followed by a combining dot.
-/

namespace ViewCompiler.Text

/-- The character `c` is the lower-case ASCII letter `letter` up to case. -/
def foldsTo (letter c : Char) : Bool :=
  c.toLower == letter || (letter == 'i' && (c == '\u0130' || c == '\u0131')) ||
    (letter == 's' && c == '\u017F') || (letter == 'k' && c == '\u212A')

/-- Reads the lower-case word `word` in any case; gives the spelling found and the rest. -/
def foldedWord? : List Char → List Char → Option (List Char × List Char)
  | [], cs => some ([], cs)
  | _ :: _, [] => none
  | letter :: word, c :: cs =>
    if foldsTo letter c then
      (foldedWord? word cs).map fun found => (c :: found.1, found.2)
    else none

/-- One character in lower case, for the letters that fold to ASCII. -/
def lowerChar (c : Char) : List Char :=
  if c == '\u0130' then ['i', '\u0307'] else if c == '\u212A' then ['k'] else [c.toLower]

/-- A keyword as found, in lower case. -/
def lower (cs : List Char) : List Char := cs.flatMap lowerChar

/-- The spelling found and the rest make up the text. -/
theorem append_of_foldedWord? :
    ∀ {word cs found rest : List Char}, foldedWord? word cs = some (found, rest) →
      found ++ rest = cs
  | [], _, _, _, h => by
    simp only [foldedWord?, Option.some.injEq, Prod.mk.injEq] at h
    rw [← h.1, ← h.2, List.nil_append]
  | letter :: word, c :: cs, found, rest, h => by
    simp only [foldedWord?] at h
    split at h
    · obtain ⟨⟨tail, rest'⟩, h', heq⟩ := Option.map_eq_some_iff.mp h
      obtain ⟨rfl, rfl⟩ := Prod.mk.inj heq
      simp [append_of_foldedWord? h']
    · simp at h

/-- The spelling found is as long as the word. -/
theorem length_of_foldedWord? :
    ∀ {word cs found rest : List Char}, foldedWord? word cs = some (found, rest) →
      found.length = word.length
  | [], _, _, _, h => by
    simp only [foldedWord?, Option.some.injEq, Prod.mk.injEq] at h
    rw [← h.1]
  | letter :: word, c :: cs, found, rest, h => by
    simp only [foldedWord?] at h
    split at h
    · obtain ⟨⟨tail, rest'⟩, h', heq⟩ := Option.map_eq_some_iff.mp h
      obtain ⟨rfl, rfl⟩ := Prod.mk.inj heq
      simp [length_of_foldedWord? h']
    · simp at h

end ViewCompiler.Text
