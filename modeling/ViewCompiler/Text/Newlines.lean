/-!
# Ends of lines

A text that is read from a file has one spelling for the end of a line: a line feed, also for a
carriage return alone or before a line feed.
-/

namespace ViewCompiler.Text

/-- Every end of a line as a line feed. -/
def unifyNewlines : List Char → List Char
  | '\r' :: '\n' :: cs => '\n' :: unifyNewlines cs
  | '\r' :: cs => '\n' :: unifyNewlines cs
  | c :: cs => c :: unifyNewlines cs
  | [] => []

end ViewCompiler.Text
