import ViewCompiler.Template.Lexeme.Shortens

/-!
# Cutting a template into lexemes

`lexemes` reads a template from left to right. Where no lexeme stands, a character is literal text,
and literal characters next to each other are one lexeme. The lexemes as written make up the
template (`raw_lexemes`).
-/

namespace ViewCompiler.Template

open Text (taken taken_append)

/-- The lexeme at the start of a text and the rest. -/
def lexeme? (cs : List Char) : Option (Lexeme × List Char) :=
  (saying? cs).map fun (saying, rest) => (⟨saying, String.ofList (taken cs rest)⟩, rest)

/-- Puts a literal character before lexemes, into the literal text they start with if they do. -/
def consChar (c : Char) : List Lexeme → List Lexeme
  | ⟨.text, raw⟩ :: rest => ⟨.text, String.singleton c ++ raw⟩ :: rest
  | rest => ⟨.text, String.singleton c⟩ :: rest

/-- A lexeme and the rest make up the text. -/
theorem append_of_lexeme? {cs : List Char} {l : Lexeme} {rest : List Char}
    (h : lexeme? cs = some (l, rest)) : l.raw.toList ++ rest = cs := by
  obtain ⟨⟨saying, rest'⟩, h', heq⟩ := Option.map_eq_some_iff.mp h
  obtain ⟨rfl, rfl⟩ := Prod.mk.inj heq
  simpa using taken_append (shortens_saying? h').1

/-- Reading a lexeme makes the text shorter. -/
theorem length_lt_of_lexeme? {cs : List Char} {l : Lexeme} {rest : List Char}
    (h : lexeme? cs = some (l, rest)) : rest.length < cs.length := by
  obtain ⟨⟨saying, rest'⟩, h', heq⟩ := Option.map_eq_some_iff.mp h
  obtain ⟨rfl, rfl⟩ := Prod.mk.inj heq
  exact (shortens_saying? h').2

/-- The lexemes of a text. -/
def lexemesOf : List Char → List Lexeme
  | [] => []
  | c :: cs =>
    match _h : lexeme? (c :: cs) with
    | some (l, rest) => l :: lexemesOf rest
    | none => consChar c (lexemesOf cs)
termination_by cs => cs.length
decreasing_by
  · exact length_lt_of_lexeme? (by assumption)
  · simp

/-- The lexemes of a template. -/
def lexemes (template : String) : List Lexeme := lexemesOf template.toList

/-- A character before lexemes is a character before their text. -/
theorem raw_consChar (c : Char) (ls : List Lexeme) :
    (consChar c ls).flatMap (·.raw.toList) = c :: ls.flatMap (·.raw.toList) := by
  fun_cases consChar c ls with
  | case1 => simp
  | case2 => simp_all

/-- The lexemes as written make up the text. -/
theorem raw_lexemesOf (cs : List Char) : (lexemesOf cs).flatMap (·.raw.toList) = cs := by
  fun_induction lexemesOf cs with
  | case1 => rfl
  | case2 c cs l rest h ih => rw [List.flatMap_cons, ih, append_of_lexeme? h]
  | case3 c cs _ ih => rw [raw_consChar, ih]

/-- **The lexemes as written make up the template.** -/
theorem raw_lexemes (template : String) :
    (lexemes template).flatMap (·.raw.toList) = template.toList := raw_lexemesOf _

end ViewCompiler.Template
