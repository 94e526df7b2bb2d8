import RulePaths.Formula.MinimalCover
import RulePaths.Formula.Parser
import RulePaths.Formula.Prime

/-!
# Minimization

A minimizer turns a formula into a minimal cover: a sum of products that is equivalent to
the formula and has the fewest terms, and among those the fewest literals. The texts of the
terms are the paths of the formula. They depend on its meaning only, never on how it is
written, so equal paths can be shared between rules.
-/

namespace RulePaths

/-- A sum of products over a domain. -/
structure Cover where
  domain : Domain
  implicants : List Implicant
deriving DecidableEq

namespace Cover

/-- The terms of a cover. -/
def terms (c : Cover) : List Term :=
  c.implicants.map fun i => i.literals c.domain

/-- Whether some term of a cover is true under an assignment. -/
def eval (value : Assignment) (c : Cover) : Bool :=
  c.terms.any (Term.eval value)

/-- The texts of the terms. -/
def paths (c : Cover) : List String :=
  c.terms.map Term.render

end Cover

/-- A minimizer for formulas of at most `limit` distinct attributes. -/
structure Minimizer where
  limit : Nat
  limit_le : limit ≤ 24
deriving DecidableEq

namespace Minimizer

/-- No minimizer accepts more attributes than this. -/
def ceiling : Nat := 24

/-- The limit that is used when none is asked for. -/
def defaultLimit : Nat := 16

/-- The minimizer for a limit, which is lowered to the ceiling. -/
def ofLimit (limit : Nat) : Minimizer :=
  ⟨min limit ceiling, Nat.min_le_right ..⟩

/-- The minimal cover of a truth table. -/
def cover (t : TruthTable) : Cover :=
  ⟨t.domain, minimalCover t.primes t.minterms⟩

/-- The minimal cover of a formula. A formula whose truth value is constant has none: no
path could stand for it. -/
def minimize (m : Minimizer) (formula : String) : Except FormulaError Cover := do
  let table ← TruthTable.tabulate (← Expr.parse formula) m.limit
  if table.isUnsatisfiable then throw (.unsatisfiable formula)
  if table.isTautology then throw (.tautology formula)
  return cover table

/-- The paths of a formula. -/
def paths (m : Minimizer) (formula : String) : Except FormulaError (List String) :=
  (m.minimize formula).map Cover.paths

end Minimizer

end RulePaths
