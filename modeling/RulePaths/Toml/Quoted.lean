/-!
# Strings in the form that TOML reads

A string is written in quotes where it needs nothing else. A string with quotes or backslashes
in it is written between apostrophes if it has none itself, since nothing is escaped there.
A string with line ends is written over several lines, between three quotes or three
apostrophes, and only a string that fits none of these forms has its characters escaped.
-/

namespace RulePaths

namespace Toml

/-- The greatest number of times that a character occurs in a row. -/
def longestRun (c : Char) (cs : List Char) : Nat :=
  (cs.foldl (fun (run : Nat × Nat) d =>
    if d = c then (run.1 + 1, max run.2 (run.1 + 1)) else (0, run.2)) (0, 0)).2

/-- Whether a character can only be written as an escape sequence. -/
def needsEscape (c : Char) : Bool :=
  (c < ' ' && c != '\t' && c != '\n') || c == '\x7f'

/-- A number in four hexadecimal digits. -/
def hexFour (n : Nat) : List Char :=
  [n / 4096 % 16, n / 256 % 16, n / 16 % 16, n % 16].map fun d => (Nat.digitChar d).toUpper

/-- A character as it is written between quotes. `multiline` says whether line ends stay as
they are. -/
def writeChar (multiline : Bool) (c : Char) : List Char :=
  match c with
  | '\x08' => ['\\', 'b']
  | '\t' => ['\\', 't']
  | '\n' => if multiline then ['\n'] else ['\\', 'n']
  | '\x0c' => ['\\', 'f']
  | '\r' => ['\\', 'r']
  | '\\' => ['\\', '\\']
  | c => if needsEscape c then '\\' :: 'u' :: hexFour c.toNat else [c]

/-- The characters of a string as they are written between quotes. A quote is escaped if more
than `allowed` of them would stand in a row; `run` of them stand before the text. -/
def writeBasic (multiline : Bool) (allowed : Nat) : (run : Nat) → List Char → List Char
  | _, [] => []
  | run, '"' :: cs =>
    if run < allowed then '"' :: writeBasic multiline allowed (run + 1) cs
    else '\\' :: '"' :: writeBasic multiline allowed 0 cs
  | _, c :: cs => writeChar multiline c ++ writeBasic multiline allowed 0 cs

/-- A string as TOML text. -/
def quote (s : String) : String :=
  let cs := s.toList
  let hasControls := cs.any needsEscape
  let hasBackslash := cs.contains '\\'
  let hasNewline := cs.contains '\n'
  let quotes := longestRun '"' cs
  let apostrophes := longestRun '\'' cs
  let opening := if hasNewline then ['\n'] else []
  let oneLine := '"' :: writeBasic false 0 0 cs ++ ['"']
  let manyLines := ['"', '"', '"'] ++ opening ++ writeBasic true 2 0 cs ++ ['"', '"', '"']
  String.ofList <|
    if !hasControls && !hasBackslash && quotes = 0 && !hasNewline then oneLine
    else if !hasControls && apostrophes = 0 && !hasNewline then '\'' :: cs ++ ['\'']
    else if !hasControls && !hasBackslash && quotes ≤ 2 then manyLines
    else if !hasControls && apostrophes ≤ 2 then
      ['\'', '\'', '\''] ++ opening ++ cs ++ ['\'', '\'', '\'']
    else if hasNewline then manyLines
    else oneLine

end Toml

end RulePaths
