/-!
# The grammar of the command line

The program has subcommands. Each takes options of its own, which are required unless they have a
default, and at most one argument without an option. Some options can be given to every subcommand,
and also before it.
-/

namespace RulePaths

namespace CommandLine

/-- What an option or an argument accepts: any text, the path of a file or directory, which is not
empty, or a number of 64 bits. -/
inductive ValueKind where
  | text
  | path
  | number
deriving DecidableEq, Inhabited

/-- An option with a value. -/
structure OptionSpec where
  name : String
  kind : ValueKind
  help : String
  default : Option String
deriving DecidableEq, Inhabited

/-- An argument without an option. -/
structure ArgumentSpec where
  name : String
  kind : ValueKind
  help : String
deriving DecidableEq, Inhabited

/-- A subcommand. -/
structure CommandSpec where
  name : String
  about : String
  options : List OptionSpec
  argument : Option ArgumentSpec
deriving DecidableEq, Inhabited

/-- The name of the program. -/
def programName : String := "rulegraph"

/-- The version of the program. -/
def programVersion : String := "0.1.0"

/-- What the program is. -/
def programAbout : String := "Boolean rule graph compiler"

/-! ### Options of all subcommands -/

/-- The configuration file. -/
def configOption : OptionSpec :=
  ⟨"config", .path, "TOML config file. Flags given on the command line take precedence", none⟩

/-- The directory of the durable store. -/
def dataDirOption : OptionSpec :=
  ⟨"data-dir", .path, "Data directory for persistent storage. In-memory when omitted", none⟩

/-- The greatest number of distinct attributes. -/
def maxAttributesOption : OptionSpec :=
  ⟨"max-attributes", .number, "Largest number of distinct attributes a formula may reference", none⟩

/-- The options that every subcommand takes. -/
def globalOptions : List OptionSpec :=
  [configOption, dataDirOption, maxAttributesOption]

/-! ### Options of single subcommands -/

/-- Where a configuration is written. -/
def pathOption : OptionSpec :=
  ⟨"path", .path, "Where to write the config", some "rulegraph.toml"⟩

/-- The id of a rule to create. -/
def idOption : OptionSpec :=
  ⟨"id", .text, "Rule id", none⟩

/-- The formula of a rule to create. -/
def formulaOption : OptionSpec :=
  ⟨"formula", .text,
    "Boolean formula over numbered attributes, e.g. \"(0&1)|(2&!3)\"", none⟩

/-- The file of a batch. -/
def fileOption : OptionSpec :=
  ⟨"file", .path, "", none⟩

/-- The formula to minimize. -/
def bareFormulaOption : OptionSpec :=
  { formulaOption with help := "" }

/-- The id of a rule to show. -/
def idArgument : ArgumentSpec :=
  ⟨"ID", .text, "Rule id"⟩

/-! ### Subcommands -/

/-- The subcommands, except the one that prints help. -/
inductive CommandName where
  | init
  | create
  | ingest
  | minimize
  | show
  | info
  | export
deriving DecidableEq, Inhabited

namespace CommandName

/-- All subcommands in the order in which help lists them. -/
def all : List CommandName :=
  [.init, .create, .ingest, .minimize, .show, .info, .export]

/-- What a subcommand takes. -/
def spec : CommandName → CommandSpec
  | .init => ⟨"init", "Write a default config file", [pathOption], none⟩
  | .create => ⟨"create", "Compile a single rule", [idOption, formulaOption], none⟩
  | .ingest =>
    ⟨"ingest",
      "Compile every rule of a JSON file: [\x7b\"id\": \"...\", \"formula\": \"...\"\x7d, ...]",
      [fileOption], none⟩
  | .minimize =>
    ⟨"minimize", "Print the minimal path expressions of a formula without storing it",
      [bareFormulaOption], none⟩
  | .show => ⟨"show", "Show a rule and its paths", [], some idArgument⟩
  | .info => ⟨"info", "Show graph statistics", [], none⟩
  | .export => ⟨"export", "Export the graph as JSON", [], none⟩

/-- The subcommand with a name. -/
def ofText? (name : String) : Option CommandName :=
  all.find? fun c => c.spec.name == name

end CommandName

/-- The name of the subcommand that prints help. -/
def helpName : String := "help"

/-- What the subcommand that prints help does. -/
def helpAbout : String := "Print this message or the help of the given subcommand(s)"

end CommandLine

end RulePaths
