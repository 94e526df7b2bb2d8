import RulePaths.Diagnostic

/-!
# Why a formula is rejected

A formula is rejected while it is read (it is empty, has a character or a number that cannot
be a token, or its tokens do not form an expression), when it speaks of too many attributes,
or because its truth table is constant and so has no paths.
-/

namespace RulePaths

/-- What a formula could have gone on with at the place where it goes wrong. -/
inductive Expected where
  /-- An operand: an attribute index, a negation or a group. -/
  | operand
  /-- The end of the innermost open group. -/
  | closing
  /-- Another operand of a chain, or the end of the formula. -/
  | continuation
deriving DecidableEq, Inhabited

/-- The words for what was expected. -/
def Expected.text : Expected → String
  | .operand => "an attribute index, '!' or '('"
  | .closing => "')'"
  | .continuation => "'&', '|' or end of formula"

/-- A stretch of a text: `length` bytes from byte `offset` on. -/
structure Span where
  offset : Nat
  length : Nat
deriving DecidableEq, Inhabited

/-- The label that puts a note on a span. -/
def Span.label (s : Span) (note : String) : Label :=
  ⟨s.offset, s.length, note⟩

/-- The reasons for rejecting a formula. -/
inductive FormulaError where
  /-- There is no token at all. -/
  | empty
  /-- A character that is neither blank nor part of any token. -/
  | strayCharacter (found : Char) (offset : Nat)
  /-- An attribute index of `2 ^ 32` or more; `digits` is its text. -/
  | indexTooLarge (digits : String) (offset : Nat)
  /-- A token where something else was expected; `found` is its text. -/
  | unexpectedToken (expected : Expected) (found : String) (offset : Nat)
  /-- The formula stops too early, at byte `offset`. -/
  | unexpectedEnd (expected : Expected) (offset : Nat)
  /-- A negation or a group that would be open inside `limit` others. -/
  | tooDeep (limit : Nat) (span : Span)
  /-- More distinct attributes than the limit allows. -/
  | tooManyAttributes (count limit : Nat)
  /-- No assignment satisfies the formula. -/
  | unsatisfiable (formula : String)
  /-- Every assignment satisfies the formula. -/
  | tautology (formula : String)
deriving DecidableEq, Inhabited

namespace FormulaError

/-- The sentence that reports the error. -/
def message : FormulaError → String
  | .empty => "empty formula"
  | .strayCharacter found offset =>
    "unexpected character '" ++ found.toString ++ "' at offset " ++ offset.repr
  | .indexTooLarge digits offset =>
    "attribute index '" ++ digits ++ "' at offset " ++ offset.repr ++ " does not fit in 32 bits"
  | .unexpectedToken expected found offset =>
    "expected " ++ expected.text ++ ", found '" ++ found ++ "' at offset " ++ offset.repr
  | .unexpectedEnd expected _ => "formula ended early: expected " ++ expected.text
  | .tooDeep limit span =>
    "formula nests deeper than " ++ limit.repr ++ " levels at offset " ++ span.offset.repr
  | .tooManyAttributes count limit =>
    "formula references " ++ count.repr ++ " distinct attributes, limit is " ++ limit.repr
  | .unsatisfiable formula => "formula \"" ++ formula ++ "\" is unsatisfiable"
  | .tautology formula => "formula \"" ++ formula ++ "\" is a tautology"

/-- The code of the kind of error. -/
def code : FormulaError → String
  | .empty => "rulegraph::formula::empty"
  | .strayCharacter .. => "rulegraph::formula::unexpected_char"
  | .indexTooLarge .. => "rulegraph::formula::index_overflow"
  | .unexpectedToken .. => "rulegraph::formula::unexpected_token"
  | .unexpectedEnd .. => "rulegraph::formula::unexpected_end"
  | .tooDeep .. => "rulegraph::formula::too_deep"
  | .tooManyAttributes .. => "rulegraph::formula::too_many_attributes"
  | .unsatisfiable .. => "rulegraph::formula::unsatisfiable"
  | .tautology .. => "rulegraph::formula::tautology"

/-- What to do about the error. -/
def help : FormulaError → String
  | .empty =>
    "Provide a boolean expression over attribute indices, e.g. \"(0 & 1) | !2\"."
  | .strayCharacter .. =>
    "Formulas may only contain attribute indices (0, 1, 2, ...), the operators `!`, `&`, `|`, " ++
    "parentheses and whitespace."
  | .indexTooLarge .. => "Attribute indices must be between 0 and 4294967295."
  | .unexpectedToken .. =>
    "Operators bind as `!` > `&` > `|`. Every operator needs an operand on each side " ++
    "(`!` only on its right)."
  | .unexpectedEnd .. =>
    "The formula is truncated. Complete the last operand or close open parentheses."
  | .tooDeep limit _ =>
    "Negations and parentheses may nest at most " ++ limit.repr ++ " levels. " ++
    "Drop redundant '!!' pairs and parentheses."
  | .tooManyAttributes count _ =>
    "Tabulation enumerates every assignment of the referenced attributes (2^" ++ count.repr ++
    " rows). Split the rule, or raise `max_attributes` in the config."
  | .unsatisfiable _ =>
    "No combination of attributes satisfies this formula, so it has no paths."
  | .tautology _ =>
    "This formula is true for every combination of its attributes. Its minimal cover is the " ++
    "empty conjunction, which names no attribute and cannot be linked into the graph."

/-- The places of the formula that the error points at. -/
def labels : FormulaError → List Label
  | .strayCharacter found offset =>
    [Span.label ⟨offset, found.utf8Size⟩ "not part of the formula grammar"]
  | .indexTooLarge digits offset => [Span.label ⟨offset, digits.utf8ByteSize⟩ "index too large"]
  | .unexpectedToken _ found offset => [Span.label ⟨offset, found.utf8ByteSize⟩ "unexpected here"]
  | .unexpectedEnd _ offset => [Span.label ⟨offset, 0⟩ "input ends here"]
  | .tooDeep _ span => [span.label "nesting limit reached here"]
  | _ => []

/-- The error, explained. -/
def diagnostic (e : FormulaError) : Diagnostic :=
  ⟨e.message, e.code, some e.help, e.labels⟩

end FormulaError

end RulePaths
