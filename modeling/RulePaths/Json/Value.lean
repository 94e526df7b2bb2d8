import RulePaths.Text.Reader

/-!
# JSON values

A JSON value as it stands in a text: the members of an object keep their order and their
repeats, numbers keep their spelling, and a string may hold half of a character beyond the
basic plane, since such a character can be written as two escapes.
-/

namespace RulePaths

namespace Json

/-- One place of a string: a character, or one half of a surrogate pair whose other half is not
beside it. -/
inductive Symbol where
  | char (c : Char)
  | half (unit : Nat)
deriving DecidableEq, Inhabited

/-- The character of a place. -/
def Symbol.toChar? : Symbol → Option Char
  | .char c => some c
  | .half _ => none

/-- The places of a string. -/
abbrev Symbols := List Symbol

/-- The places of a text. -/
def Symbols.ofString (s : String) : Symbols :=
  s.toList.map Symbol.char

/-- The text of a string, if no half of a character is in it. -/
def Symbols.toString? (s : Symbols) : Option String :=
  (s.mapM Symbol.toChar?).map String.ofList

/-- A JSON value. -/
inductive Value where
  | null
  | bool (b : Bool)
  | number (literal : String)
  | text (s : Symbols)
  | array (items : List Value)
  | object (members : List (Symbols × Value))

namespace Value

instance : Inhabited Value := ⟨null⟩

/-! ### Values of data -/

/-- A text. -/
def ofString (s : String) : Value :=
  .text (.ofString s)

/-- A natural number. -/
def ofNat (n : Nat) : Value :=
  .number n.repr

/-- An array of what the elements of a list stand for. -/
def ofList {α : Type} (item : α → Value) (xs : List α) : Value :=
  .array (xs.map item)

/-- What there is, or `null`. -/
def ofOption {α : Type} (item : α → Value) : Option α → Value
  | some x => item x
  | none => .null

/-- An object with named members. -/
def ofMembers (members : List (String × Value)) : Value :=
  .object (members.map fun m => (.ofString m.1, m.2))

/-! ### Data of values -/

/-- The text of a string. -/
def toString? : Value → Option String
  | .text s => s.toString?
  | _ => none

/-- The natural number of a number without sign, fraction and exponent, if it fits in 64 bits. -/
def toNat? : Value → Option Nat
  | .number literal => Text.word? literal.toList
  | _ => none

/-- The name of one of several choices: a text, or an object with nothing but this name in it and
`null` under the name. -/
def toChoice? : Value → Option String
  | .text s => s.toString?
  | .object [(name, .null)] => name.toString?
  | _ => none

/-- What the items of an array stand for. -/
def toList? {α : Type} (item : Value → Option α) : Value → Option (List α)
  | .array items => items.mapM item
  | _ => none

/-- The values of the fields of a record. A record is an object in which each field stands
exactly once, among other members, or the array of the values alone. -/
def fields? (names : List String) : Value → Option (List Value)
  | .array items => if items.length = names.length then some items else none
  | .object members => do
    let named ← members.mapM fun (name, v) => name.toString?.map (·, v)
    names.mapM fun name =>
      match named.filter (·.1 == name) with
      | [(_, v)] => some v
      | _ => none
  | _ => none

end Value

end Json

end RulePaths
