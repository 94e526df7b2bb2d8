import RulePaths.Toml.Scan

/-!
# Numbers in TOML

Integers are decimal with an optional sign, or hexadecimal, octal or binary after `0x`, `0o`
and `0b`. An underscore may stand between two digits. A decimal number that has more than one
digit does not start with `0`. Integers have to fit in 64 bits with a sign.

Fractions and exponents make a number a float. No setting is a float, so its value is not
kept; it only has to be finite, unless it is negative or spelled `inf`.
-/

namespace RulePaths

namespace Toml

open Text

/-- What a number is. -/
inductive Number where
  | integer (n : Int)
  | float
deriving DecidableEq, Inhabited

/-- The digits that a text goes on with after a digit, and the rest. An underscore before a
digit is skipped. -/
def moreDigits (isDigit : Char → Bool) : List Char → List Char × List Char
  | '_' :: c :: cs =>
    if isDigit c then
      let (digits, rest) := moreDigits isDigit cs
      (c :: digits, rest)
    else ([], '_' :: c :: cs)
  | c :: cs =>
    if isDigit c then
      let (digits, rest) := moreDigits isDigit cs
      (c :: digits, rest)
    else ([], c :: cs)
  | [] => ([], [])

/-- Reads one or more digits. -/
def digits (isDigit : Char → Bool) : TextReader (List Char)
  | c :: cs =>
    if isDigit c then
      let (digits, rest) := moreDigits isDigit cs
      some (c :: digits, rest)
    else none
  | [] => none

/-- The value of digits in a base. -/
def digitsValue (base : Nat) (ds : List Char) : Nat :=
  ds.foldl (fun value d => base * value + (hexDigit? d).getD 0) 0

/-- The least natural number that does not fit in 64 bits with a sign. -/
def integerBound : Nat := 1 <<< 63

/-- An integer, if it fits in 64 bits with a sign. -/
def ofRange? (n : Int) : Option Int :=
  if -integerBound ≤ n ∧ n < integerBound then some n else none

/-- Reads an integer in a base, after the mark of the base. -/
def integerInBase (base : Nat) (isDigit : Char → Bool) : TextReader Int := fun cs => do
  let (ds, rest) ← digits isDigit cs
  return (← ofRange? (digitsValue base ds), rest)

/-- Reads an optional sign. The answer is whether it is a minus. -/
def sign : List Char → Bool × List Char
  | '-' :: cs => (true, cs)
  | '+' :: cs => (false, cs)
  | cs => (false, cs)

/-- Reads the whole part of a decimal number. -/
def wholePart : TextReader (List Char)
  | '0' :: cs => some (['0'], cs)
  | cs => digits Char.isDigit cs

/-- Reads an optional fraction. -/
def fraction : TextReader (Option (List Char))
  | '.' :: cs => (digits Char.isDigit cs).map fun (ds, rest) => (some ds, rest)
  | cs => some (none, cs)

/-- Reads an optional exponent. -/
def exponent : TextReader (Option Int)
  | c :: cs =>
    if c = 'e' ∨ c = 'E' then do
      let (isNegative, rest) := sign cs
      let (ds, rest) ← digits Char.isDigit rest
      let n : Int := digitsValue 10 ds
      return (some (if isNegative then -n else n), rest)
    else some (none, c :: cs)
  | [] => some (none, [])

/-- Whether the decimal number with some digits and an exponent of ten is beyond all finite
floats of 64 bits: those end half a unit of the last place above the greatest one. Only a
number with 309 digits before the point has to be compared. -/
def isBeyondFinite (ds : List Char) (exponent : Int) : Bool :=
  let ds := ds.dropWhile (· == '0')
  let places : Int := ds.length + exponent
  if ds.isEmpty || places < 309 then false
  else if 309 < places then true
  else
    let bound := 1 <<< 1024 - 1 <<< 970
    if 0 ≤ exponent then bound ≤ digitsValue 10 ds * Nat.pow 10 exponent.toNat
    else bound * Nat.pow 10 (-exponent).toNat ≤ digitsValue 10 ds

/-- Reads a decimal number after its sign. -/
def decimal (isNegative : Bool) : TextReader Number := fun cs => do
  let (whole, rest) ← wholePart cs
  let (fraction, rest) ← fraction rest
  let (exponent, rest) ← exponent rest
  if fraction.isNone && exponent.isNone then
    let n : Int := digitsValue 10 whole
    return (.integer (← ofRange? (if isNegative then -n else n)), rest)
  else
    let places := fraction.getD []
    if !isNegative && isBeyondFinite (whole ++ places) (exponent.getD 0 - places.length) then none
    else return (.float, rest)

/-- Reads a number. -/
def number : TextReader Number
  | '0' :: 'x' :: cs =>
    (integerInBase 16 (fun c => (hexDigit? c).isSome) cs).map fun (n, rest) => (.integer n, rest)
  | '0' :: 'o' :: cs =>
    (integerInBase 8 (fun c => '0' ≤ c && c ≤ '7') cs).map fun (n, rest) => (.integer n, rest)
  | '0' :: 'b' :: cs =>
    (integerInBase 2 (fun c => c == '0' || c == '1') cs).map fun (n, rest) => (.integer n, rest)
  | cs =>
    let (isNegative, rest) := sign cs
    match after? ['i', 'n', 'f'] rest, after? ['n', 'a', 'n'] rest with
    | some rest, _ => some (.float, rest)
    | none, some rest => some (.float, rest)
    | none, none => decimal isNegative rest

end Toml

end RulePaths
