import RulePaths.Formula.FormulaError
import RulePaths.Text.Blank
import RulePaths.Text.Reader

/-!
# Tokens of a formula

A formula is written with the operators `!`, `&` and `|`, with parentheses, and with
attribute indices in decimal digits. Blank characters separate tokens and mean nothing else.

`Token.scan` cuts a text into its tokens. A run of digits is one token however long it is,
and its value decides whether it is an attribute index: leading zeros do no harm. Scanning
stops at the first place that cannot be a token.
-/

namespace RulePaths

/-- What a token stands for. -/
inductive Symbol where
  | index (value : Nat)
  | not
  | and
  | or
  | opening
  | closing
deriving DecidableEq, Inhabited

/-- A token: its symbol, the byte at which it starts, and its text. -/
structure Token where
  symbol : Symbol
  offset : Nat
  text : String
deriving DecidableEq, Inhabited

namespace Token

/-- The number of bytes of a token. -/
def length (t : Token) : Nat :=
  t.text.utf8ByteSize

/-- The stretch of the formula that a token takes up. -/
def span (t : Token) : Span :=
  ⟨t.offset, t.length⟩

/-- Attribute indices are below this bound. -/
def indexBound : Nat := 1 <<< 32

/-- The symbol of an operator or a parenthesis. -/
def operator? : Char → Option Symbol
  | '!' => some .not
  | '&' => some .and
  | '|' => some .or
  | '(' => some .opening
  | ')' => some .closing
  | _ => none

/-- The tokens of a text that starts at byte `offset`, in order, or the leftmost reason why
the text has none. -/
def scan (offset : Nat) : List Char → Except FormulaError (List Token)
  | [] => .ok []
  | c :: rest =>
    if Blank.isBlank c then
      scan (offset + c.utf8Size) rest
    else match operator? c with
    | some symbol => do
      let tokens ← scan (offset + c.utf8Size) rest
      return ⟨symbol, offset, c.toString⟩ :: tokens
    | none =>
      if c.isDigit then
        let run := c :: rest.takeWhile Char.isDigit
        if Text.decimal run < indexBound then do
          let tokens ← scan (offset + run.length) (rest.dropWhile Char.isDigit)
          return ⟨.index (Text.decimal run), offset, String.ofList run⟩ :: tokens
        else
          .error (.indexTooLarge (String.ofList run) offset)
      else
        .error (.strayCharacter c offset)
termination_by cs => cs.length
decreasing_by
  all_goals simp only [List.length_cons]
  · omega
  · omega
  · have := (List.dropWhile_suffix Char.isDigit (l := rest)).length_le
    omega

/-- The tokens of a formula. -/
def ofFormula (formula : String) : Except FormulaError (List Token) :=
  scan 0 formula.toList

end Token

end RulePaths
