import RulePaths.Text.Reader

/-!
# Pieces of a TOML text

Readers for what TOML texts are made of: blanks, comments and line ends, the four forms of
strings, and the parts of keys. A reader takes its piece off the front of a text and leaves
the rest; it has no answer if the text does not start with such a piece.
-/

namespace RulePaths

namespace Toml

open Text

/-- Whether a character is a blank inside a line. -/
def isSpace (c : Char) : Bool :=
  c == ' ' || c == '\t'

/-- The text after its blanks. -/
def skipSpaces (cs : List Char) : List Char :=
  cs.dropWhile isSpace

/-- Whether a character may stand in comments and literal strings: no control character but
the tab. -/
def isPlain (c : Char) : Bool :=
  c == '\t' || (' ' ≤ c && c != '\x7f')

/-- The text after a line end, if it starts with one. -/
def afterNewline? : List Char → Option (List Char)
  | '\n' :: cs => some cs
  | '\r' :: '\n' :: cs => some cs
  | _ => none

/-- The text after a comment, if it starts with one. -/
def skipComment : List Char → List Char
  | '#' :: cs => cs.dropWhile isPlain
  | cs => cs

/-- The text after the rest of a line that holds nothing more than blanks and a comment. -/
def endLine? (cs : List Char) : Option (List Char) :=
  match skipComment (skipSpaces cs) with
  | [] => some []
  | cs => afterNewline? cs

/-- The text after all blanks, comments and line ends, reading at most `lines` line ends. -/
def skipLines : (lines : Nat) → List Char → List Char
  | 0, cs => skipComment (skipSpaces cs)
  | lines + 1, cs =>
    let rest := skipComment (skipSpaces cs)
    match afterNewline? rest with
    | some next => skipLines lines next
    | none => rest

/-- The text after all blanks, comments and line ends. -/
def skipTrivia (cs : List Char) : List Char :=
  skipLines cs.length cs

/-! ### Strings -/

/-- Reads the character with a number of `count` hexadecimal digits. -/
def unicodeChar (count : Nat) : TextReader Char := fun cs => do
  let (n, rest) ← hexDigits count 0 cs
  if n.isValidChar then return (Char.ofNat n, rest) else none

/-- Reads the character that an escape sequence stands for, after the backslash. -/
def escape : TextReader Char
  | 'b' :: cs => some ('\x08', cs)
  | 't' :: cs => some ('\t', cs)
  | 'n' :: cs => some ('\n', cs)
  | 'f' :: cs => some ('\x0c', cs)
  | 'r' :: cs => some ('\r', cs)
  | '"' :: cs => some ('"', cs)
  | '\\' :: cs => some ('\\', cs)
  | 'u' :: cs => unicodeChar 4 cs
  | 'U' :: cs => unicodeChar 8 cs
  | _ => none

/-- Reads the rest of a basic string on one line, up to its closing quote. -/
def basicBody : (limit : Nat) → TextReader (List Char)
  | 0, _ => none
  | _ + 1, [] => none
  | _ + 1, '"' :: cs => some ([], cs)
  | limit + 1, '\\' :: cs => do
    let (c, rest) ← escape cs
    let (more, rest) ← basicBody limit rest
    return (c :: more, rest)
  | limit + 1, c :: cs => do
    if isPlain c then
      let (more, rest) ← basicBody limit cs
      return (c :: more, rest)
    else none

/-- The text after all blanks and line ends. -/
def skipBlankLines : List Char → List Char
  | ' ' :: cs => skipBlankLines cs
  | '\t' :: cs => skipBlankLines cs
  | '\n' :: cs => skipBlankLines cs
  | '\r' :: '\n' :: cs => skipBlankLines cs
  | cs => cs

/-- The text after a backslash at the end of a line. The line end is skipped, and so are all
blanks and line ends after it. -/
def afterLineContinuation? (cs : List Char) : Option (List Char) :=
  (afterNewline? (skipSpaces cs)).map skipBlankLines

/-- The quotes that a text starts with, at most five of them, and the rest. -/
def quotes (quote : Char) (cs : List Char) : Nat × List Char :=
  let count := min 5 (cs.takeWhile (· == quote)).length
  (count, cs.drop count)

/-- Reads the rest of a basic string over several lines. Three quotes end it; one or two more
before them belong to the string. -/
def basicLines : (limit : Nat) → TextReader (List Char)
  | 0, _ => none
  | _ + 1, [] => none
  | limit + 1, '"' :: cs =>
    let (count, rest) := quotes '"' ('"' :: cs)
    if 3 ≤ count then some (List.replicate (count - 3) '"', rest)
    else do
      let (more, rest) ← basicLines limit rest
      return (List.replicate count '"' ++ more, rest)
  | limit + 1, '\\' :: cs =>
    match afterLineContinuation? cs with
    | some rest => basicLines limit rest
    | none => do
      let (c, rest) ← escape cs
      let (more, rest) ← basicLines limit rest
      return (c :: more, rest)
  | limit + 1, c :: cs =>
    match afterNewline? (c :: cs) with
    | some rest => do
      let (more, rest) ← basicLines limit rest
      return ('\n' :: more, rest)
    | none => do
      if isPlain c then
        let (more, rest) ← basicLines limit cs
        return (c :: more, rest)
      else none

/-- Reads the rest of a literal string on one line, up to its closing apostrophe. -/
def literalBody (cs : List Char) : Option (List Char × List Char) :=
  let body := cs.takeWhile fun c => isPlain c && c != '\''
  (after? ['\''] (cs.drop body.length)).map (body, ·)

/-- Reads the rest of a literal string over several lines. Three apostrophes end it; one or two
more before them belong to the string. -/
def literalLines : (limit : Nat) → TextReader (List Char)
  | 0, _ => none
  | _ + 1, [] => none
  | limit + 1, '\'' :: cs =>
    let (count, rest) := quotes '\'' ('\'' :: cs)
    if 3 ≤ count then some (List.replicate (count - 3) '\'', rest)
    else do
      let (more, rest) ← literalLines limit rest
      return (List.replicate count '\'' ++ more, rest)
  | limit + 1, c :: cs =>
    match afterNewline? (c :: cs) with
    | some rest => do
      let (more, rest) ← literalLines limit rest
      return ('\n' :: more, rest)
    | none => do
      if isPlain c then
        let (more, rest) ← literalLines limit cs
        return (c :: more, rest)
      else none

/-- The text after a line end that directly follows the opening of a string over several
lines. -/
def skipFirstNewline (cs : List Char) : List Char :=
  (afterNewline? cs).getD cs

/-- Reads a string on one line, in either form. -/
def lineString : TextReader String
  | '"' :: cs => (basicBody (cs.length + 1) cs).map fun (s, rest) => (String.ofList s, rest)
  | '\'' :: cs => (literalBody cs).map fun (s, rest) => (String.ofList s, rest)
  | _ => none

/-- Reads a string in any of the four forms. -/
def anyString (cs : List Char) : Option (String × List Char) :=
  match after? ['"', '"', '"'] cs, after? ['\'', '\'', '\''] cs with
  | some rest, _ =>
    (basicLines (rest.length + 1) (skipFirstNewline rest)).map
      fun (s, rest) => (String.ofList s, rest)
  | none, some rest =>
    (literalLines (rest.length + 1) (skipFirstNewline rest)).map
      fun (s, rest) => (String.ofList s, rest)
  | none, none => lineString cs

/-! ### Keys -/

/-- Whether a character may stand in a key without quotes. -/
def isBareKeyChar (c : Char) : Bool :=
  c.isAlphanum || c == '_' || c == '-'

/-- Reads one part of a key. -/
def keyPart (cs : List Char) : Option (String × List Char) :=
  match cs.takeWhile isBareKeyChar with
  | [] => lineString cs
  | part => some (String.ofList part, cs.drop part.length)

/-- Reads the parts of a key, which are separated by dots, with blanks around them. -/
def keyParts : (limit : Nat) → TextReader (List String)
  | 0, _ => none
  | limit + 1, cs => do
    let (part, rest) ← keyPart (skipSpaces cs)
    match skipSpaces rest with
    | '.' :: rest =>
      let (parts, rest) ← keyParts limit rest
      return (part :: parts, rest)
    | rest => return ([part], rest)

/-- Reads a key. -/
def key (cs : List Char) : Option (List String × List Char) :=
  keyParts (cs.length + 1) cs

end Toml

end RulePaths
