import RulePaths.Json.Value

/-!
# Reading JSON

`Json.parse?` reads a text that holds one value and blanks around it. Only the space, the tab and
the two characters of line ends are blank.
-/

namespace RulePaths

namespace Json

open Text

/-- Whether a character is blank. -/
def isSpace (c : Char) : Bool :=
  c == ' ' || c == '\t' || c == '\n' || c == '\r'

/-- The text after its blanks. -/
def skipSpaces (cs : List Char) : List Char :=
  cs.dropWhile isSpace

/-! ### Strings -/

/-- Whether a 16-bit number is the first half of a surrogate pair. -/
def isHighHalf (n : Nat) : Bool :=
  0xD800 ≤ n && n ≤ 0xDBFF

/-- Whether a 16-bit number is the second half of a surrogate pair. -/
def isLowHalf (n : Nat) : Bool :=
  0xDC00 ≤ n && n ≤ 0xDFFF

/-- The character of a surrogate pair. -/
def joinHalves (high low : Nat) : Char :=
  Char.ofNat (0x10000 + (high - 0xD800) * 0x400 + (low - 0xDC00))

/-- The character of a 16-bit number that is not half of a pair. -/
def ofUnit (n : Nat) : Symbol :=
  if isHighHalf n || isLowHalf n then .half n else .char (Char.ofNat n)

/-- Reads the number of an escape of four digits, after its backslash. -/
def unit : TextReader Nat
  | 'u' :: cs => hexDigits 4 0 cs
  | _ => none

/-- Reads what an escape of four digits stands for, after its backslash. A second such escape
belongs to it if the two are the halves of a pair. -/
def unitSymbol : TextReader Symbol := fun cs => do
  let (n, rest) ← unit cs
  match rest with
  | '\\' :: next =>
    match unit next with
    | some (low, after) =>
      if isHighHalf n && isLowHalf low then return (.char (joinHalves n low), after)
      else return (ofUnit n, rest)
    | none => return (ofUnit n, rest)
  | _ => return (ofUnit n, rest)

/-- Reads what an escape stands for, after its backslash. -/
def escape : TextReader Symbol
  | '"' :: cs => some (.char '"', cs)
  | '\\' :: cs => some (.char '\\', cs)
  | '/' :: cs => some (.char '/', cs)
  | 'b' :: cs => some (.char '\x08', cs)
  | 'f' :: cs => some (.char '\x0c', cs)
  | 'n' :: cs => some (.char '\n', cs)
  | 'r' :: cs => some (.char '\r', cs)
  | 't' :: cs => some (.char '\t', cs)
  | cs => unitSymbol cs

/-- Reads the rest of a string up to its closing quote. -/
def stringBody : (limit : Nat) → TextReader Symbols
  | 0, _ => none
  | _ + 1, [] => none
  | _ + 1, '"' :: cs => some ([], cs)
  | limit + 1, '\\' :: cs => do
    let (s, rest) ← escape cs
    let (more, rest) ← stringBody limit rest
    return (s :: more, rest)
  | limit + 1, c :: cs => do
    if c < ' ' then none
    else
      let (more, rest) ← stringBody limit cs
      return (.char c :: more, rest)

/-- Reads a string. -/
def string : TextReader Symbols
  | '"' :: cs => stringBody (cs.length + 1) cs
  | _ => none

/-! ### Numbers -/

/-- Reads one or more digits. -/
def digits : TextReader (List Char) := fun cs =>
  match cs.takeWhile Char.isDigit with
  | [] => none
  | ds => some (ds, cs.drop ds.length)

/-- Reads an optional character out of some. -/
def option (choices : List Char) : List Char → List Char × List Char
  | c :: cs => if choices.contains c then ([c], cs) else ([], c :: cs)
  | [] => ([], [])

/-- Reads the digits before the point. A zero stands alone. -/
def wholePart : TextReader (List Char)
  | '0' :: cs => if (cs.head?.any Char.isDigit) then none else some (['0'], cs)
  | cs => digits cs

/-- Reads an optional fraction. -/
def fraction : TextReader (List Char)
  | '.' :: cs => (digits cs).map fun (ds, rest) => ('.' :: ds, rest)
  | cs => some ([], cs)

/-- Reads an optional exponent. -/
def exponent : TextReader (List Char) := fun cs =>
  match option ['e', 'E'] cs with
  | ([], rest) => some ([], rest)
  | (mark, rest) => do
    let (sign, rest) := option ['+', '-'] rest
    let (ds, rest) ← digits rest
    return (mark ++ sign ++ ds, rest)

/-- Reads a number. -/
def number : TextReader String := fun cs => do
  let (sign, rest) := option ['-'] cs
  let (whole, rest) ← wholePart rest
  let (places, rest) ← fraction rest
  let (power, rest) ← exponent rest
  return (String.ofList (sign ++ whole ++ places ++ power), rest)

/-! ### Values -/

/-- Reads a value that is no array and no object. -/
def scalar : TextReader Value := fun cs =>
  match cs with
  | '"' :: _ => (string cs).map fun (s, rest) => (.text s, rest)
  | 'n' :: _ => (after? "null".toList cs).map (.null, ·)
  | 't' :: _ => (after? "true".toList cs).map (.bool true, ·)
  | 'f' :: _ => (after? "false".toList cs).map (.bool false, ·)
  | _ => (number cs).map fun (literal, rest) => (.number literal, rest)

/-- Reads one or more items with commas between them, up to the closing character. -/
def separated {α : Type} (item : TextReader α) (close : Char) :
    (limit : Nat) → TextReader (List α)
  | 0, _ => none
  | limit + 1, cs => do
    let (x, rest) ← item (skipSpaces cs)
    match skipSpaces rest with
    | ',' :: rest =>
      let (xs, rest) ← separated item close limit rest
      return (x :: xs, rest)
    | c :: rest => if c = close then return ([x], rest) else none
    | [] => none

/-- Reads items with commas between them, up to the closing character. -/
def items {α : Type} (item : TextReader α) (close : Char) : TextReader (List α) := fun cs =>
  match skipSpaces cs with
  | c :: rest => if c = close then some ([], rest) else separated item close (cs.length + 1) cs
  | [] => none

/-- Reads a member of an object, whose value is read by `value`. -/
def member (value : TextReader Value) : TextReader (Symbols × Value) := fun cs => do
  let (name, rest) ← string cs
  let (v, rest) ← value (skipSpaces (← after? [':'] (skipSpaces rest)))
  return ((name, v), rest)

/-- Reads a value with at most `depth` arrays and objects inside each other. -/
def value : (depth : Nat) → TextReader Value
  | 0, cs => scalar cs
  | depth + 1, cs =>
    match cs with
    | '[' :: rest => (items (value depth) ']' rest).map fun (vs, rest) => (.array vs, rest)
    | '\x7b' :: rest =>
      (items (member (value depth)) '\x7d' rest).map fun (ms, rest) => (.object ms, rest)
    | cs => scalar cs

/-- The value that a text holds. -/
def parse? (text : String) : Option Value :=
  let cs := text.toList
  match value cs.length (skipSpaces cs) with
  | some (v, rest) => if (skipSpaces rest).isEmpty then some v else none
  | none => none

end Json

end RulePaths
