import RulePaths.Toml.Scan

/-!
# Dates and times in TOML

A date is `1979-05-27`, a time of day is `07:32:00` or `07:32:00.999`, and a date may be
followed by a time and that by an offset, as in `1979-05-27T07:32:00+01:00`. The readers here
check that every part is in its range. No setting is a date, so what a date or a time says is
not kept.
-/

namespace RulePaths

namespace Toml

open Text

/-- Reads a number of exactly `width` decimal digits. -/
def fixedNumber : (width : Nat) → (value : Nat) → TextReader Nat
  | 0, value, cs => some (value, cs)
  | _ + 1, _, [] => none
  | width + 1, value, c :: cs =>
    if c.isDigit then fixedNumber width (10 * value + (c.toNat - '0'.toNat)) cs else none

/-- Reads a number of two digits in a range. -/
def twoDigits (least greatest : Nat) : TextReader Nat := fun cs => do
  let (n, rest) ← fixedNumber 2 0 cs
  if least ≤ n ∧ n ≤ greatest then return (n, rest) else none

/-- How many days a month of a year has. -/
def daysInMonth (year month : Nat) : Nat :=
  if month = 2 then
    if year % 4 = 0 ∧ (year % 100 ≠ 0 ∨ year % 400 = 0) then 29 else 28
  else if month = 4 ∨ month = 6 ∨ month = 9 ∨ month = 11 then 30
  else 31

/-- The text after a date. -/
def afterDate? (cs : List Char) : Option (List Char) := do
  let (year, rest) ← fixedNumber 4 0 cs
  let (month, rest) ← twoDigits 1 12 (← after? ['-'] rest)
  let (_, rest) ← twoDigits 1 (daysInMonth year month) (← after? ['-'] rest)
  return rest

/-- The text after the fraction of a second, if there is one. -/
def afterFraction : List Char → List Char
  | '.' :: c :: cs => if c.isDigit then cs.dropWhile Char.isDigit else '.' :: c :: cs
  | cs => cs

/-- The text after a time of day. The second may be a leap second. -/
def afterTime? (cs : List Char) : Option (List Char) := do
  let (_, rest) ← twoDigits 0 23 cs
  let (_, rest) ← twoDigits 0 59 (← after? [':'] rest)
  let (_, rest) ← twoDigits 0 60 (← after? [':'] rest)
  return afterFraction rest

/-- The text after an offset in hours and minutes. -/
def afterHoursMinutes? (cs : List Char) : Option (List Char) := do
  let (_, rest) ← twoDigits 0 23 cs
  let (_, rest) ← twoDigits 0 59 (← after? [':'] rest)
  return rest

/-- The text after an optional offset. -/
def afterOffset? : List Char → Option (List Char)
  | 'Z' :: cs | 'z' :: cs => some cs
  | '+' :: cs | '-' :: cs => afterHoursMinutes? cs
  | cs => some cs

/-- The text after an optional time of day that follows a date. -/
def afterTimeOfDate? : List Char → Option (List Char)
  | [] => some []
  | c :: cs =>
    if c = 'T' ∨ c = 't' ∨ c = ' ' then
      match afterTime? cs with
      | some rest => afterOffset? rest
      | none => some (c :: cs)
    else some (c :: cs)

/-- The text after a date, a time of day or both. -/
def afterDateTime? (cs : List Char) : Option (List Char) :=
  match afterDate? cs with
  | some rest => afterTimeOfDate? rest
  | none => afterTime? cs

end Toml

end RulePaths
