import RulePaths.CommandLine.Help
import RulePaths.Config.ConfigFile
import RulePaths.Graph.ExportFormat
import RulePaths.Json.Printer
import RulePaths.Json.Reader
import RulePaths.Session

/-!
# Running the command line

`CommandLine.run` takes the arguments of the program and the files it works on. It answers what is
printed and the status with which the program ends: 0 if all went well, 1 if the command failed and
2 if the arguments are wrong. Nothing is printed unless all went well; otherwise there is a
complaint for the person who called the program.

The configuration file is read first, and what is given in options takes the place of what stands
in it.
-/

namespace RulePaths

namespace CommandLine

/-- Why a command fails. -/
inductive RunError where
  | failure (f : Failure)
  /-- A file that was to be created exists. -/
  | fileExists (path : String)
  /-- A batch is no text in a file that can be read, or not in the form of a batch. -/
  | badBatch (path : String)
deriving DecidableEq, Inhabited

/-- The sentence that reports the error. -/
def RunError.message : RunError → String
  | .failure f => f.message
  | .fileExists path => path ++ " already exists"
  | .badBatch path => "failed to read rules: " ++ path

/-- A command on files, which prints a text unless it fails. -/
abbrev RunM := ExceptT RunError (StateM Files)

/-- How the program ended: the status, what it printed, and what it complained of. -/
structure Exit where
  status : Nat
  output : String
  complaint : String
deriving DecidableEq, Inhabited

/-- The configuration for an invocation. -/
def Invocation.configuration (i : Invocation) (files : Files) : Except ConfigError Config := do
  let c ← match i.config with
    | some path => Config.load files path
    | none => pure Config.inMemory
  return {
    dataDir := i.dataDir.or c.dataDir
    maxAttributes := i.maxAttributes.getD c.maxAttributes }

/-- A session of an engine. -/
def inSession {α : Type} (config : Config) (request : Request α) : RunM α := fun files =>
  let (r, files) := session config request files
  (r.mapError .failure, files)

/-- The batch in a file. -/
def readBatch? (files : Files) (path : String) : Option (List RuleDefinition) := do
  RuleDefinition.batchOfJson? (← Json.parse? (← files.readText? path))

/-- Writes a configuration to a file that does not exist. -/
def writeConfig (config : Config) (path : String) : RunM String := fun files =>
  if files.exists? path then (.error (.fileExists path), files)
  else
    match config.validate with
    | .error e => (.error (.failure (.config e)), files)
    | .ok config =>
      match config.save path files with
      | (.error e, files) => (.error (.failure (.config e)), files)
      | (.ok (), files) => (.ok ("Wrote config to " ++ path ++ "\n"), files)

/-- Compiles the rules of a batch. Nothing is compiled if the batch cannot be read. -/
def ingestFile (config : Config) (path : String) : RunM String := do
  let answer ← inSession config fun files e =>
    match readBatch? files path with
    | none => (.ok none, e)
    | some rules =>
      let (report, e) := Engine.ingest rules e
      (.ok (some (rules.length, report)), e)
  match answer with
  | none => throw (.badBatch path)
  | some (count, report) =>
    return "Ingested " ++ count.repr ++ " rules from " ++ path ++ "\n" ++ report.text

/-- Runs a command under a configuration. The answer is what is printed. -/
def Command.run (config : Config) : Command → RunM String
  | .init path => writeConfig config path
  | .create id formula => do
    let answer ← inSession config fun _ => Engine.createRule id formula
    return answer.message ++ "\n"
  | .ingest file => ingestFile config file
  | .minimize formula => do
    let paths ← inSession config fun _ e => (e.minimize formula, e)
    return String.join (paths.map fun path => path ++ "\n")
  | .show id => do
    let rule ← inSession config fun _ => Engine.rule id
    return rule.text
  | .info => do
    let info ← inSession config fun _ => Engine.info
    return info.text
  | .export => do
    let graph ← inSession config fun _ => Engine.exportGraph
    return graph.toJson.pretty ++ "\n"

/-- The path that a command names. -/
def Command.path? : Command → Option String
  | .init path => some path
  | .ingest file => some file
  | .create .. | .minimize _ | .show _ | .info | .export => none

/-- The paths of all files that an invocation may read or write, as far as they can be known from
the files that are there. -/
def Invocation.paths (i : Invocation) (files : Files) : List String :=
  let stores := match i.configuration files with
    | .ok config => config.dataDir.toList.map TablesFile.pathIn
    | .error _ => []
  i.config.toList ++ i.command.path?.toList ++ stores

/-- Does what an invocation asks for. -/
def Invocation.run (i : Invocation) : RunM String := do
  match i.configuration (← get) with
  | .error e => throw (.failure (.config e))
  | .ok config => i.command.run config

/-- The end of a run that went well. -/
def Exit.success (output : String) : Exit := ⟨0, output, ""⟩

/-- The end of a run whose command failed. -/
def Exit.failure (e : RunError) : Exit := ⟨1, "", "Error: " ++ e.message ++ "\n"⟩

/-- The end of a run with wrong arguments. -/
def Exit.usage : Exit :=
  ⟨2, "", "error: wrong arguments\n\nFor more information, try '--help'.\n"⟩

/-- Runs the program with some arguments on some files. -/
def run (args : List String) (files : Files) : Exit × Files :=
  match Invocation.ofArguments args with
  | .error .usage => (.usage, files)
  | .error (.help topic) => (.success topic.text, files)
  | .error .version => (.success (programName ++ " " ++ programVersion ++ "\n"), files)
  | .ok i =>
    match i.run files with
    | (.ok text, files) => (.success text, files)
    | (.error e, files) => (.failure e, files)

end CommandLine

end RulePaths
