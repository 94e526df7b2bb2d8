import RulePaths.Formula.Domain
import RulePaths.Formula.FormulaError

/-!
# Truth tables

A truth table lists the rows of a domain that satisfy an expression. A row is a number whose
bit at a position says whether the attribute at this position holds; the satisfying rows are
called minterms.
-/

namespace RulePaths

/-- A domain with the rows that satisfy an expression over it, ascending. -/
structure TruthTable where
  domain : Domain
  minterms : List Nat
deriving DecidableEq

namespace TruthTable

/-- The table of an expression, row by row. -/
def ofExpr (e : Expr) : TruthTable :=
  let domain := Domain.ofExpr e
  ⟨domain, (List.range (1 <<< domain.size)).filter fun row => e.eval (domain.assignment row)⟩

/-- The table of an expression that mentions at most `limit` attributes. No row is evaluated
for an expression that mentions more. -/
def tabulate (e : Expr) (limit : Nat) : Except FormulaError TruthTable :=
  let count := (Domain.ofExpr e).size
  if limit < count then .error (.tooManyAttributes count limit) else .ok (ofExpr e)

/-- The number of all rows. -/
def rowCount (t : TruthTable) : Nat :=
  1 <<< t.domain.size

/-- No row satisfies the expression. -/
def isUnsatisfiable (t : TruthTable) : Bool :=
  t.minterms.isEmpty

/-- Every row satisfies the expression. -/
def isTautology (t : TruthTable) : Bool :=
  t.minterms.length == t.rowCount

end TruthTable

end RulePaths
