/-!
# The attributes named by a path

The text of a path is cut at every `&` and `!`. The pieces that are not empty are the
attributes of the path by name, each listed where it first occurs. The first of them leads
the path. Whether an attribute is negated is not part of its name.
-/

namespace RulePaths

namespace Path

/-- Whether a character ends one piece of a path and starts the next. -/
def isSeparator (c : Char) : Bool :=
  c == '&' || c == '!'

/-- The pieces of a path that are not empty. -/
def pieces (path : List Char) : List (List Char) :=
  (path.splitOnP isSeparator).filter fun piece => !piece.isEmpty

/-- The elements of a list that are not in `seen`, each where it first occurs. -/
def firstOccurrences (seen : List String) : List String → List String
  | [] => []
  | s :: ss =>
    if seen.contains s then firstOccurrences seen ss
    else s :: firstOccurrences (s :: seen) ss

/-- The attributes that a path names. -/
def attributeTokens (path : String) : List String :=
  firstOccurrences [] ((pieces path.toList).map String.ofList)

end Path

end RulePaths
