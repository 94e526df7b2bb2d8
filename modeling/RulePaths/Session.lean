import RulePaths.Engine
import RulePaths.Graph.MemoryStore
import RulePaths.Graph.TablesFile

/-!
# Sessions

A session is an engine that lives for one request. It is opened as its configuration says, over an
empty store in memory or over the durable store in a directory, and what it commits to a durable
store is in the directory when it is closed.
-/

namespace RulePaths

/-- A request that an engine over any type of store can serve. It may depend on the files as they
are once the engine is open. -/
abbrev Request (α : Type) :=
  ∀ {σ τ : Type} [GraphStore σ τ], Files → EngineM σ α

/-- Opens an engine, serves a request and closes the engine. The store is not opened if the
configuration is out of range. -/
def session {α : Type} (config : Config) (request : Request α) :
    ExceptT Failure (StateM Files) α := fun files =>
  match config.validate with
  | .error e => (.error (.config e), files)
  | .ok config =>
    match config.dataDir with
    | none => ((request files ⟨config, MemoryStore.empty⟩).1, files)
    | some dir =>
      match TablesFile.openIn files dir with
      | (.error e, files) => (.error (.store e), files)
      | (.ok tables, files) =>
        let (r, engine) := request files ⟨config, tables⟩
        (r, TablesFile.saveIn files dir engine.store)

end RulePaths
