import RulePaths.Json.Value

/-!
# Definitions of rules

A rule is defined by its id and its formula. Batches of definitions are written in JSON, as an
array of objects with the fields `id` and `formula`.
-/

namespace RulePaths

/-- The definition of a rule. -/
structure RuleDefinition where
  id : String
  formula : String
deriving DecidableEq, Inhabited

namespace RuleDefinition

/-- The definition that a JSON value holds. -/
def ofJson? (v : Json.Value) : Option RuleDefinition := do
  let [id, formula] ← v.fields? ["id", "formula"] | none
  return ⟨← id.toString?, ← formula.toString?⟩

/-- The batch of definitions that a JSON value holds. -/
def batchOfJson? (v : Json.Value) : Option (List RuleDefinition) :=
  v.toList? ofJson?

end RuleDefinition

end RulePaths
