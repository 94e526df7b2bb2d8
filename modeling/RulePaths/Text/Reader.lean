/-!
# Reading from texts

What readers of several formats share: texts that start with a given one, digits and the numbers
they stand for. A reader takes a piece off the front of a text and leaves the rest. It has no
answer if the text does not start with such a piece.
-/

namespace RulePaths

/-- Takes a value off the front of a text. -/
abbrev TextReader (α : Type) := List Char → Option (α × List Char)

namespace Text

/-- The text after a given start, if it starts with it. -/
def after? : List Char → List Char → Option (List Char)
  | [], cs => some cs
  | p :: ps, c :: cs => if p = c then after? ps cs else none
  | _ :: _, [] => none

/-- The value of a hexadecimal digit. -/
def hexDigit? (c : Char) : Option Nat :=
  if '0' ≤ c ∧ c ≤ '9' then some (c.toNat - '0'.toNat)
  else if 'a' ≤ c ∧ c ≤ 'f' then some (c.toNat - 'a'.toNat + 10)
  else if 'A' ≤ c ∧ c ≤ 'F' then some (c.toNat - 'A'.toNat + 10)
  else none

/-- Reads `count` hexadecimal digits. -/
def hexDigits : (count : Nat) → (value : Nat) → TextReader Nat
  | 0, value, cs => some (value, cs)
  | _ + 1, _, [] => none
  | count + 1, value, c :: cs => do hexDigits count (16 * value + (← hexDigit? c)) cs

/-- The number that a run of decimal digits stands for. -/
def decimal (digits : List Char) : Nat :=
  digits.foldl (fun n d => 10 * n + (d.toNat - '0'.toNat)) 0

/-- The number that a text of decimal digits alone stands for, if there are any and it fits in
64 bits. -/
def word? (cs : List Char) : Option Nat :=
  if cs.isEmpty || !cs.all Char.isDigit then none
  else if decimal cs < 1 <<< 64 then some (decimal cs)
  else none

end Text

end RulePaths
