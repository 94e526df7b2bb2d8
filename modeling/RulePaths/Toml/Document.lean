import RulePaths.Toml.DateTime
import RulePaths.Toml.Number
import RulePaths.Toml.Scope

/-!
# TOML documents

A document is a text of lines: keys with their values, headers of tables, headers of lists of
tables, and comments. `Document.parse?` reads it, and `Document.get?` tells what a key of its
top table holds.

Arrays and tables in values may be nested, but not too deep, and a key has not too many parts.
-/

namespace RulePaths

namespace Toml

open Text

/-- The least depth of arrays and tables inside each other, and the least number of parts of a
key, that is too great. -/
def nestingLimit : Nat := 80

/-- Reads a key that is not too long. -/
def shortKey : TextReader (List String) := fun cs => do
  let (parts, rest) ← key cs
  if parts.length < nestingLimit then return (parts, rest) else none

/-! ### Values -/

/-- Reads a value that holds no other values. -/
def scalar (cs : List Char) : Option (Value × List Char) :=
  match anyString cs, after? "true".toList cs, after? "false".toList cs, afterDateTime? cs with
  | some (s, rest), _, _, _ => some (.text s, rest)
  | none, some rest, _, _ => some (.other, rest)
  | none, none, some rest, _ => some (.other, rest)
  | none, none, none, some rest => some (.other, rest)
  | none, none, none, none =>
    match number cs with
    | some (.integer n, rest) => some (.integer n, rest)
    | some (.float, rest) => some (.other, rest)
    | none => none

/-- The text after an array, without its opening bracket, whose items are read by `item`. Blanks,
comments and line ends may stand around items, and a comma after the last one. -/
def afterArray? (item : TextReader Value) : (limit : Nat) → List Char → Option (List Char)
  | 0, _ => none
  | limit + 1, cs =>
    match skipTrivia cs with
    | ']' :: rest => some rest
    | start => do
      let (_, rest) ← item start
      match skipTrivia rest with
      | ']' :: rest => some rest
      | ',' :: rest => afterArray? item limit rest
      | _ => none

/-- The text after the pairs of a table in a value, up to its closing brace. There is at least
one pair, and no comma after the last one. -/
def afterPairs? (item : TextReader Value) : (limit : Nat) → Scope → List Char → Option (List Char)
  | 0, _, _ => none
  | limit + 1, scope, cs => do
    let (key, rest) ← shortKey cs
    let (v, rest) ← item (skipSpaces (← after? ['='] rest))
    let scope ← scope.defineKey [] key v
    match skipSpaces rest with
    | '\x7d' :: rest => some rest
    | ',' :: rest => afterPairs? item limit scope rest
    | _ => none

/-- The text after a table in a value, without its opening brace. -/
def afterTable? (item : TextReader Value) (cs : List Char) : Option (List Char) :=
  match skipSpaces cs with
  | '\x7d' :: rest => some rest
  | _ => afterPairs? item (cs.length + 1) [] cs

/-- Reads a value with at most `depth` arrays and tables inside each other. -/
def value : (depth : Nat) → TextReader Value
  | 0, cs => scalar cs
  | depth + 1, cs =>
    match cs with
    | '[' :: rest => (afterArray? (value depth) (rest.length + 1) rest).map (.other, ·)
    | '\x7b' :: rest => (afterTable? (value depth) rest).map (.other, ·)
    | cs => scalar cs

/-! ### Lines -/

/-- A document: what it defines. -/
structure Document where
  scope : Scope
deriving DecidableEq, Inhabited

/-- Reads one line into a scope, given the table that the line stands in. The answer is the scope
and the table after the line. -/
def line (scope : Scope) (site : Site) : TextReader (Scope × Site)
  | '[' :: '[' :: cs => do
    let (header, rest) ← shortKey cs
    return (← scope.addTable header, ← endLine? (← after? [']', ']'] rest))
  | '[' :: cs => do
    let (header, rest) ← shortKey cs
    return (← scope.openTable header, ← endLine? (← after? [']'] rest))
  | cs =>
    match endLine? cs with
    | some rest => some ((scope, site), rest)
    | none => do
      let (key, rest) ← shortKey cs
      let (v, rest) ← value (nestingLimit - 1) (skipSpaces (← after? ['='] rest))
      return ((← scope.defineKey site key v, site), ← endLine? rest)

/-- Reads all lines of a text. -/
def lines : (limit : Nat) → Scope → Site → List Char → Option Scope
  | 0, _, _, _ => none
  | limit + 1, scope, site, cs =>
    match skipSpaces cs with
    | [] => some scope
    | cs => do
      let ((scope, site), rest) ← line scope site cs
      lines limit scope site rest

namespace Document

/-- Reads a document. A byte order mark in front is skipped. -/
def parse? (text : String) : Option Document :=
  let cs := match text.toList with
    | '\ufeff' :: cs => cs
    | cs => cs
  (lines (cs.length + 1) [] [] cs).map Document.mk

/-- What a key of the top table holds. -/
def get? (d : Document) (name : String) : Option Value :=
  (d.scope.find? [] name).map fun
    | .value v => v
    | _ => .other

end Document

end Toml

end RulePaths
