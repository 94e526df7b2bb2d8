import RulePaths.Config.Config
import RulePaths.Graph.Export
import RulePaths.Rule.Compile
import RulePaths.Rule.RuleDefinition

/-!
# The engine

An engine is a store with the configuration it is used under. It compiles rules, alone or in
batches, and reads the graph back.
-/

namespace RulePaths

/-- A store and its configuration. -/
structure Engine (σ : Type) where
  config : Config
  store : σ
deriving DecidableEq

/-- A request of an engine: it fails or has an answer, and leaves the engine in some state. -/
abbrev EngineM (σ α : Type) := ExceptT Failure (StateM (Engine σ)) α

/-- A rule as it is in the graph: its id, its formula and its paths in ascending order. -/
abbrev RuleView := RuleEntry

/-- The lines that show a rule. -/
def RuleEntry.text (r : RuleEntry) : String :=
  r.paths.foldl (fun text path => text ++ "  path:    " ++ path ++ "\n")
    ("rule " ++ r.id ++ "\n  formula: " ++ r.formula ++ "\n")

/-- What became of a batch: how many rules were created, how many existed, and the id and the
message of each that failed. -/
structure IngestReport where
  created : Nat
  skipped : Nat
  failed : List (String × String)
deriving DecidableEq, Inhabited

namespace IngestReport

/-- The report on no rule. -/
def empty : IngestReport := ⟨0, 0, []⟩

/-- The report with the answer for one more rule. -/
def add (r : IngestReport) (id : String) : Except Failure Acknowledgment → IngestReport
  | .ok a => if a.isNoop then { r with skipped := r.skipped + 1 }
    else { r with created := r.created + 1 }
  | .error f => { r with failed := r.failed ++ [(id, f.message)] }

/-- The lines that show a report. -/
def text (r : IngestReport) : String :=
  r.failed.foldl (fun text f => text ++ "  " ++ f.1 ++ ": " ++ f.2 ++ "\n")
    (r.created.repr ++ " created, " ++ r.skipped.repr ++ " already existed, " ++
      r.failed.length.repr ++ " failed\n")

end IngestReport

/-- Figures about an engine. -/
structure EngineInfo where
  counts : Counts
  maxAttributes : Nat
  persistent : Bool
deriving DecidableEq, Inhabited

/-- The lines that show the figures. -/
def EngineInfo.text (i : EngineInfo) : String :=
  "rulegraph engine info\n" ++
  "  rules:          " ++ i.counts.rules.repr ++ "\n" ++
  "  paths:          " ++ i.counts.paths.repr ++ "\n" ++
  "  attributes:     " ++ i.counts.attributes.repr ++ "\n" ++
  "  IN_PATH edges:  " ++ i.counts.inPathEdges.repr ++ "\n" ++
  "  HAS_RULE edges: " ++ i.counts.hasRuleEdges.repr ++ "\n" ++
  "  max attributes: " ++ i.maxAttributes.repr ++ "\n" ++
  "  persistent:     " ++ (if i.persistent then "true" else "false") ++ "\n"

namespace Engine

variable {σ τ : Type} [GraphStore σ τ]

/-- An engine over a store, if the configuration is in range. -/
def ofStore (config : Config) (store : σ) : Except ConfigError (Engine σ) :=
  config.validate.map fun config => ⟨config, store⟩

/-- The minimizer of an engine. -/
def minimizer (e : Engine σ) : Minimizer :=
  e.config.minimizer

/-- A call of the store of an engine. -/
def call {α : Type} (m : StoreM σ α) : EngineM σ α := fun e =>
  let (r, store) := m e.store
  (r.mapError .store, { e with store })

/-- Compiles a rule. -/
def createRule (id formula : String) : EngineM σ Acknowledgment := fun e =>
  let (r, store) := compile e.minimizer id formula e.store
  (r, { e with store })

/-- Compiles the rules of a batch one after the other, each in a transaction of its own. A
rule that fails is reported and does not stop the batch. -/
def ingest (rules : List RuleDefinition) : StateM (Engine σ) IngestReport :=
  rules.foldlM (fun report rule => do
    return report.add rule.id (← (createRule rule.id rule.formula).run)) .empty

/-- The paths of a formula. The store is not touched. -/
def minimize (e : Engine σ) (formula : String) : Except Failure (List String) :=
  (e.minimizer.paths formula).mapError .formula

/-- Reads a rule back. -/
def rule (id : String) : EngineM σ RuleView := do
  let s ← call GraphStore.snapshot
  match s.node? .rule id with
  | some node => return s.ruleEntry node
  | none => throw (.rule (.notFound id))

/-- The whole graph by keys. -/
def exportGraph : EngineM σ GraphExport := do
  return (← call GraphStore.snapshot).toExport

/-- Figures about the engine. -/
def info : EngineM σ EngineInfo := do
  let counts ← call GraphStore.counts
  let e ← getThe (Engine σ)
  return ⟨counts, e.minimizer.limit, e.config.isPersistent⟩

end Engine

end RulePaths
