import RulePaths.Diagnostic

/-!
# Why a configuration is rejected
-/

namespace RulePaths

/-- What is wrong with a configuration or with the file that holds it. -/
inductive ConfigError where
  /-- A value is out of range. -/
  | invalid (reason : String)
  /-- The file cannot be read as text. -/
  | read (path : String)
  /-- The text is no configuration, or the configuration has no text. -/
  | parse (path : String) (reason : String)
  /-- The file or a directory above it cannot be written. -/
  | write (path : String)
deriving DecidableEq, Inhabited

namespace ConfigError

/-- The sentence that reports the error. -/
def message : ConfigError → String
  | .invalid reason => "invalid configuration: " ++ reason
  | .read path => "failed to read config: " ++ path
  | .parse path _ => "failed to parse config: " ++ path
  | .write path => "failed to write config: " ++ path

/-- The code of the kind of error. -/
def code : ConfigError → String
  | .invalid _ => "rulegraph::config::invalid"
  | .read _ => "rulegraph::config::read"
  | .parse .. => "rulegraph::config::parse"
  | .write _ => "rulegraph::config::write"

/-- What to do about the error. -/
def help : ConfigError → String
  | .invalid reason => "Check the configuration values. " ++ reason
  | .read _ => "Ensure the config file exists and is readable."
  | .parse _ reason =>
    "Check the TOML syntax. Known keys: `data_dir`, `max_attributes`. " ++ reason
  | .write _ => "Ensure you have write permissions to the target directory."

/-- The error, explained. -/
def diagnostic (e : ConfigError) : Diagnostic :=
  ⟨e.message, e.code, some e.help, []⟩

end ConfigError

end RulePaths
