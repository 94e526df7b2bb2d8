import RulePaths.CommandLine.Arguments

/-!
# Help texts

Help says what the program or a subcommand does, how it is called, and what its arguments and
options mean. Options that are known to all subcommands stand between those of the subcommand:
first come the first options of both, in the order of their names, then the second ones, and so on.
-/

namespace RulePaths

namespace CommandLine

/-- A text with blanks at its end up to a width. -/
def padTo (width : Nat) (s : String) : String :=
  s ++ String.ofList (List.replicate (width - s.length) ' ')

/-- A name as the name of a value: in capitals, with underscores for hyphens. -/
def valueName (name : String) : String :=
  String.ofList (name.toList.map fun c => if c = '-' then '_' else c.toUpper)

/-- An option with its value. -/
def OptionSpec.signature (o : OptionSpec) : String :=
  "--" ++ o.name ++ " <" ++ valueName o.name ++ ">"

/-- An argument without an option. -/
def ArgumentSpec.signature (a : ArgumentSpec) : String :=
  "<" ++ a.name ++ ">"

/-- What is said about an option. -/
def OptionSpec.description (o : OptionSpec) : String :=
  match o.default with
  | some value => o.help ++ " [default: " ++ value ++ "]"
  | none => o.help

/-- Two lists in turn, one element of each, the one whose name comes first in front. -/
def interleave : List OptionSpec → List OptionSpec → List OptionSpec
  | [], bs => bs
  | as, [] => as
  | a :: as, b :: bs =>
    if (compare a.name b.name).isLE then a :: b :: interleave as bs
    else b :: a :: interleave as bs

/-- The lines on an option or a flag: what it looks like and what is said about it. -/
def optionLines (short long description : String) : String :=
  "  " ++ padTo 4 short ++ long ++ "\n          " ++ description ++ "\n"

/-- The lines on an option. -/
def OptionSpec.lines (o : OptionSpec) : String :=
  optionLines "" o.signature o.description

/-- The lines on the flag that prints help. -/
def helpFlagLines : String := optionLines "-h, " "--help" "Print help"

/-- The lines on the flag that prints the version. -/
def versionFlagLines : String := optionLines "-V, " "--version" "Print version"

/-- How the program or a subcommand is called. -/
def usageLine (words : List String) : String :=
  "\nUsage: " ++ " ".intercalate (programName :: words) ++ "\n"

/-- The line on a subcommand. -/
def commandLine (name about : String) : String :=
  "  " ++ padTo 10 name ++ about ++ "\n"

/-- Help on the program. -/
def programHelp : String :=
  programAbout ++ "\n" ++ usageLine ["[OPTIONS]", "<COMMAND>"] ++ "\nCommands:\n" ++
    String.join (CommandName.all.map fun c => commandLine c.spec.name c.spec.about) ++
    commandLine helpName helpAbout ++ "\nOptions:\n" ++
    String.join (globalOptions.map OptionSpec.lines) ++ helpFlagLines ++ versionFlagLines

/-- Help on a subcommand. -/
def CommandSpec.helpText (c : CommandSpec) : String :=
  let required := (c.options.filter fun o => o.default.isNone).map OptionSpec.signature
  let argument := c.argument.toList.map ArgumentSpec.signature
  let argumentLines := match c.argument with
    | some a => "\nArguments:\n  " ++ a.signature ++ "  " ++ a.help ++ "\n"
    | none => ""
  c.about ++ "\n" ++ usageLine ([c.name, "[OPTIONS]"] ++ required ++ argument) ++ argumentLines ++
    "\nOptions:\n" ++ String.join ((interleave globalOptions c.options).map OptionSpec.lines) ++
    helpFlagLines

/-- Help on the subcommand that prints help. -/
def helpHelp : String :=
  helpAbout ++ "\n" ++ usageLine [helpName, "[COMMAND]..."] ++
    "\nArguments:\n  [COMMAND]...  Print help for the subcommand(s)\n"

/-- The help on a topic. -/
def Topic.text : Topic → String
  | .program => programHelp
  | .command c => c.spec.helpText
  | .helpCommand => helpHelp

end CommandLine

end RulePaths
