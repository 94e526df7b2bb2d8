import RulePaths.Config.Config
import RulePaths.Files
import RulePaths.Toml.Document
import RulePaths.Toml.Quoted

/-!
# Configuration files

A configuration is kept in a TOML file with the keys `data_dir` and `max_attributes`. Both may
be missing, and other keys are ignored.
-/

namespace RulePaths

namespace Config

/-- The key of the directory of the durable store. -/
def dataDirKey : String := "data_dir"

/-- The key of the greatest number of distinct attributes. -/
def maxAttributesKey : String := "max_attributes"

/-- The configuration that a document holds, with the values of `inMemory` for what is missing,
or what is wrong with the document. Whether the values are in range is not looked at. -/
def ofDocument (d : Toml.Document) : Except String Config := do
  let dataDir ← match d.get? dataDirKey with
    | none => pure inMemory.dataDir
    | some (.text dir) => pure (some dir)
    | some _ => throw (dataDirKey ++ " must be a string")
  let maxAttributes ← match d.get? maxAttributesKey with
    | none => pure inMemory.maxAttributes
    | some (.integer (.ofNat n)) => pure n
    | some _ => throw (maxAttributesKey ++ " must be a non-negative integer")
  return ⟨dataDir, maxAttributes⟩

/-- The text of a configuration, if TOML has an integer for the number in it. -/
def toText (c : Config) : Except String String :=
  if c.maxAttributes < Toml.integerBound then
    let dataDir := match c.dataDir with
      | some dir => dataDirKey ++ " = " ++ Toml.quote dir ++ "\n"
      | none => ""
    .ok (dataDir ++ maxAttributesKey ++ " = " ++ c.maxAttributes.repr ++ "\n")
  else .error (maxAttributesKey ++ " is too large")

/-- The configuration in a file, if its values are in range. -/
def load (files : Files) (path : String) : Except ConfigError Config := do
  let some text := files.readText? path | throw (.read path)
  let some document := Toml.Document.parse? text | throw (.parse path "The text is not TOML.")
  let c ← (ofDocument document).mapError (.parse path)
  c.validate

/-- Writes a configuration to a file. The directories above the file are made if they are missing,
and stay where they were made even if the file cannot be written. -/
def save (c : Config) (path : String) : ExceptT ConfigError (StateM Files) Unit := do
  let text ← (c.toText.mapError (.parse path) : Except ConfigError String)
  if let some above := Files.parent? path then
    if !(← Files.createDirectories above) then throw (.write above)
  match (← get).writeText? path text with
  | some files => set files
  | none => throw (.write path)

end Config

end RulePaths
