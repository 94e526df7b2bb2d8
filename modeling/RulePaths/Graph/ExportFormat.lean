import RulePaths.Graph.Export
import RulePaths.Json.Value

/-!
# Exports in JSON

An export is written as an object with its rules, its paths and its attributes.
-/

namespace RulePaths

open Json (Value)

/-- The entry of a rule as an object. -/
def RuleEntry.toJson (r : RuleEntry) : Value :=
  .ofMembers [("id", .ofString r.id), ("formula", .ofString r.formula),
    ("paths", .ofList .ofString r.paths)]

/-- The entry of a path as an object. A path without a lead has `null` for it. -/
def PathEntry.toJson (p : PathEntry) : Value :=
  .ofMembers [("id", .ofString p.id), ("lead_attribute", .ofOption .ofString p.lead),
    ("rules", .ofList .ofString p.rules)]

/-- An export as an object. -/
def GraphExport.toJson (e : GraphExport) : Value :=
  .ofMembers [("rules", .ofList RuleEntry.toJson e.rules),
    ("paths", .ofList PathEntry.toJson e.paths),
    ("attributes", .ofList .ofString e.attributes)]

end RulePaths
