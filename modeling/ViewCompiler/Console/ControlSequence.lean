import ViewCompiler.Text.Cut

/-!
# Control sequences

A control sequence moves the cursor or changes the colours of a terminal: the escape character and
an opening bracket, parameters, intermediate characters and a final character. What is printed for
a program to read has none of them. They are left out in one pass, so what is left around a
sequence is not read as a sequence again. No theorem is about them: only the text that a command
line prints depends on this module.
-/

namespace ViewCompiler.Console

open Text

/-- A parameter of a control sequence. -/
def isParameter (c : Char) : Bool := '0' ≤ c && c ≤ '?'

/-- A character between the parameters and the final character. -/
def isIntermediate (c : Char) : Bool := ' ' ≤ c && c ≤ '/'

/-- The last character of a control sequence. -/
def isFinal (c : Char) : Bool := '@' ≤ c && c ≤ '~'

/-- What is after the control sequence at the start of a text. -/
def afterControl? : List Char → Option (List Char)
  | '\x1b' :: '[' :: cs =>
    match (cs.dropWhile isParameter).dropWhile isIntermediate with
    | c :: rest => if isFinal c then some rest else none
    | [] => none
  | _ => none

/-- A control sequence takes something from the start of a text. -/
theorem shorter_of_afterControl? {cs rest : List Char} (h : afterControl? cs = some rest) :
    Shorter rest cs := by
  unfold afterControl? at h
  split at h
  · rename_i cs
    split at h
    · rename_i c after hcs
      split at h
      · obtain rfl := Option.some.inj h
        have hsuffix : c :: after <:+ cs :=
          hcs ▸ (List.dropWhile_suffix _).trans (List.dropWhile_suffix _)
        have hlength := hsuffix.length_le
        simp only [List.length_cons] at hlength
        exact ⟨(List.suffix_cons c after).trans
          (hsuffix.trans ((List.suffix_cons _ cs).trans (List.suffix_cons _ _))), by
            simp only [List.length_cons]; omega⟩
      · simp at h
    · simp at h
  · simp at h

/-- The text without its control sequences. -/
def withoutControls : List Char → List Char
  | [] => []
  | c :: cs =>
    match _h : afterControl? (c :: cs) with
    | some rest => withoutControls rest
    | none => c :: withoutControls cs
termination_by cs => cs.length
decreasing_by
  · exact (shorter_of_afterControl? (by assumption)).2
  · simp

/-- The text as it is printed for a program to read. -/
def printable (text : String) : String := String.ofList (withoutControls text.toList)

end ViewCompiler.Console
