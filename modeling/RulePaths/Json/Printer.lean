import RulePaths.Json.Value

/-!
# Printing JSON

A value is printed over several lines: every item of an array and every member of an object has
a line of its own, two blanks further in. Empty arrays and objects stay on their line. In strings
only quotes, backslashes and control characters are escaped.
-/

namespace RulePaths

namespace Json

/-- A 16-bit number as an escape of four digits. -/
def writeUnit (n : Nat) : String :=
  "\\u" ++ String.ofList
    ([n / 4096 % 16, n / 256 % 16, n / 16 % 16, n % 16].map Nat.digitChar)

/-- One place of a string between quotes. -/
def Symbol.print : Symbol → String
  | .char '"' => "\\\""
  | .char '\\' => "\\\\"
  | .char '\x08' => "\\b"
  | .char '\x0c' => "\\f"
  | .char '\n' => "\\n"
  | .char '\r' => "\\r"
  | .char '\t' => "\\t"
  | .char c => if c < ' ' then writeUnit c.toNat else c.toString
  | .half n => writeUnit n

/-- A string in quotes. -/
def Symbols.print (s : Symbols) : String :=
  "\"" ++ String.join (s.map Symbol.print) ++ "\""

/-- The start of a line that is `depth` steps in. -/
def newLine (depth : Nat) : String :=
  "\n" ++ String.ofList (List.replicate (2 * depth) ' ')

mutual

/-- A value whose first line starts `depth` steps in. -/
def Value.print (depth : Nat) : Value → String
  | .null => "null"
  | .bool b => if b then "true" else "false"
  | .number literal => literal
  | .text s => s.print
  | .array [] => "[]"
  | .array (v :: vs) => "[" ++ printItems (depth + 1) (v :: vs) ++ newLine depth ++ "]"
  | .object [] => "\x7b\x7d"
  | .object (m :: ms) => "\x7b" ++ printMembers (depth + 1) (m :: ms) ++ newLine depth ++ "\x7d"

/-- Items of an array, each on its line. -/
def printItems (depth : Nat) : List Value → String
  | [] => ""
  | [v] => newLine depth ++ v.print depth
  | v :: vs => newLine depth ++ v.print depth ++ "," ++ printItems depth vs

/-- Members of an object, each on its line. -/
def printMembers (depth : Nat) : List (Symbols × Value) → String
  | [] => ""
  | [(name, v)] => newLine depth ++ name.print ++ ": " ++ v.print depth
  | (name, v) :: ms =>
    newLine depth ++ name.print ++ ": " ++ v.print depth ++ "," ++ printMembers depth ms

end

/-- A value as a text. -/
def Value.pretty (v : Value) : String :=
  v.print 0

end Json

end RulePaths
