import RulePaths.Config.ConfigError
import RulePaths.Formula.FormulaError
import RulePaths.Graph.StoreError
import RulePaths.Rule.RuleError

/-!
# Failures

All that can go wrong when rules are compiled or read back: a formula is rejected, the store
fails, the id of a rule is no good, or the configuration is not.
-/

namespace RulePaths

/-- A failure of the engine. -/
inductive Failure where
  | formula (e : FormulaError)
  | store (e : StoreError)
  | rule (e : RuleError)
  | config (e : ConfigError)
deriving DecidableEq, Inhabited

namespace Failure

/-- The failure, explained. -/
def diagnostic : Failure → Diagnostic
  | .formula e => e.diagnostic
  | .store e => e.diagnostic
  | .rule e => e.diagnostic
  | .config e => e.diagnostic

/-- The sentence that reports the failure. -/
def message (f : Failure) : String :=
  f.diagnostic.message

end Failure

end RulePaths
