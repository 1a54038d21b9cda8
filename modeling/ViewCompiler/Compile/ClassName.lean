/-!
# Classes of components

The class that a component's tag names. The parts of a tag between dots are namespaces and at the
end the class; the words of a part between hyphens are joined, each with a capital first letter.
Empty words and empty parts are left out.
-/

namespace ViewCompiler.Compile

/-- A namespace with one backslash at its end, or nothing. -/
def normalizeNamespace (path : String) : String :=
  match path.toList.reverse.dropWhile (· == '\\') with
  | [] => ""
  | c :: cs => String.ofList (c :: cs).reverse ++ "\\"

/-- A word with a capital first letter. -/
def capitalized (word : String) : String :=
  match word.toList with
  | [] => ""
  | c :: cs => String.ofList (c.toUpper :: cs)

/-- The words of a text between separators, without the empty ones. -/
def wordsBetween (separator : Char) (text : List Char) : List String :=
  ((text.splitOn separator).filter (!·.isEmpty)).map String.ofList

/-- The name for one part of a tag, or nothing for a part without words. -/
def segmentName (segment : List Char) : Option String :=
  match wordsBetween '-' segment with
  | [] => none
  | words => some (String.join (words.map capitalized))

/-- The class of a component in a namespace. -/
def className (tag path : String) : String :=
  normalizeNamespace path ++
    "\\".intercalate ((tag.toList.splitOn '.').filterMap segmentName)

end ViewCompiler.Compile
