import RulePaths.Diagnostic

/-!
# Why a rule id is rejected
-/

namespace RulePaths

/-- What is wrong with the id of a rule. -/
inductive RuleError where
  /-- The id has no character that is not blank. -/
  | emptyId
  /-- No rule has this id. -/
  | notFound (id : String)
deriving DecidableEq, Inhabited

namespace RuleError

/-- The sentence that reports the error. -/
def message : RuleError → String
  | .emptyId => "rule id must not be empty"
  | .notFound id => "rule not found: " ++ id

/-- The code of the kind of error. -/
def code : RuleError → String
  | .emptyId => "rulegraph::rule::empty_id"
  | .notFound _ => "rulegraph::rule::not_found"

/-- What to do about the error. -/
def help : RuleError → String
  | .emptyId => "Choose a stable, non-empty id for each logical rule, e.g. \"Rule 1\"."
  | .notFound _ =>
    "No rule with this id has been created. List rules with `rulegraph export`."

/-- The error, explained. -/
def diagnostic (e : RuleError) : Diagnostic :=
  ⟨e.message, e.code, some e.help, []⟩

end RuleError

end RulePaths
