import RulePaths.Config.ConfigError
import RulePaths.Formula.Minimizer

/-!
# Configuration

Where the engine keeps its graph and how large formulas may get.
-/

namespace RulePaths

/-- The configuration of an engine. -/
structure Config where
  /-- The directory of the durable store. Without one the graph is kept in memory. -/
  dataDir : Option String
  /-- The greatest number of distinct attributes of a formula. -/
  maxAttributes : Nat
deriving DecidableEq, Inhabited

namespace Config

/-- A graph in memory, and the limit that minimizers have by themselves. -/
def inMemory : Config := ⟨none, Minimizer.defaultLimit⟩

/-- A durable graph in a directory. -/
def durable (dir : String) : Config := { inMemory with dataDir := some dir }

/-- Whether the graph outlives the engine. -/
def isPersistent (c : Config) : Bool := c.dataDir.isSome

/-- A configuration whose values are in range. -/
def validate (c : Config) : Except ConfigError Config :=
  if c.maxAttributes = 0 ∨ Minimizer.ceiling < c.maxAttributes then
    .error (.invalid ("max_attributes must be between 1 and " ++ Minimizer.ceiling.repr ++
      ", got " ++ c.maxAttributes.repr))
  else .ok c

/-- The minimizer that a configuration asks for. -/
def minimizer (c : Config) : Minimizer :=
  Minimizer.ofLimit c.maxAttributes

end Config

end RulePaths
