import RulePaths.CommandLine.Grammar
import RulePaths.Text.Reader

/-!
# Reading the command line

`Invocation.ofArguments` reads the arguments of the program. They are read from left to right in
two levels, those before the subcommand and those after it.

An option is `--name value` or `--name=value`. In the first form the value does not start with `-`,
unless it is `-`. An option is given at most once on each level, and what is given after the
subcommand wins. After `--` nothing is an option. `--help` and `-h` stop reading, and so does
`--version` or `-V` before the subcommand, but only if the options so far on their level are right.
-/

namespace RulePaths

namespace CommandLine

/-! ### Values -/

/-- The number that a text stands for: decimal digits, maybe after a plus sign, of a number that
fits in 64 bits. -/
def readNumber? (s : String) : Option Nat :=
  match s.toList with
  | '+' :: ds => Text.word? ds
  | ds => Text.word? ds

/-- Whether a text is a value of a kind. -/
def ValueKind.accepts : ValueKind → String → Bool
  | .text, _ => true
  | .path, s => !s.isEmpty
  | .number, s => (readNumber? s).isSome

/-! ### Outcomes -/

/-- What help is asked for. -/
inductive Topic where
  | program
  | command (name : CommandName)
  | helpCommand
deriving DecidableEq, Inhabited

/-- Why reading ends without a command to run. -/
inductive Stop where
  /-- The arguments are wrong. -/
  | usage
  | help (topic : Topic)
  | version
deriving DecidableEq, Inhabited

/-- A subcommand with its values. -/
inductive Command where
  | init (path : String)
  | create (id formula : String)
  | ingest (file : String)
  | minimize (formula : String)
  | show (id : String)
  | info
  | export
deriving DecidableEq, Inhabited

/-- What the program is asked to do, and the options of all subcommands. -/
structure Invocation where
  config : Option String
  dataDir : Option String
  maxAttributes : Option Nat
  command : Command
deriving DecidableEq, Inhabited

/-! ### Single arguments -/

/-- What an argument looks like. -/
inductive Form where
  /-- The argument `--`. -/
  | separator
  /-- An option by name, maybe with a value. -/
  | long (name : String) (value : Option String)
  /-- A flag of one character, maybe with more characters after it. -/
  | short (flag : Char)
  /-- Anything else. -/
  | plain
deriving DecidableEq, Inhabited

/-- What an argument looks like. -/
def Form.of (s : String) : Form :=
  match s.toList with
  | ['-', '-'] => .separator
  | '-' :: '-' :: cs =>
    let name := cs.takeWhile (· != '=')
    match cs.drop name.length with
    | [] => .long (String.ofList name) none
    | _ :: value => .long (String.ofList name) (some (String.ofList value))
  | '-' :: c :: _ => .short c
  | _ => .plain

/-! ### Levels -/

/-- What was read on one level: the topic of its help, the options it knows, the options that were
given, an option whose value has not been looked at or still has to come, and the argument without
an option. -/
structure Level where
  topic : Topic
  options : List OptionSpec
  given : List (String × String)
  pending : Option (OptionSpec × Option String)
  argument : Option String

namespace Level

/-- The level before the subcommand. -/
def program : Level := ⟨.program, globalOptions, [], none, none⟩

/-- The level after a subcommand. -/
def command (c : CommandName) : Level :=
  ⟨.command c, c.spec.options ++ globalOptions, [], none, none⟩

/-- Looks at the value of the pending option. It is wrong if it is missing, if the option does not
accept it, or if the option was given before. -/
def settle (l : Level) : Except Stop Level :=
  match l.pending with
  | none => .ok l
  | some (_, none) => .error .usage
  | some (o, some value) =>
    if (l.given.lookup o.name).isSome || !o.kind.accepts value then .error .usage
    else .ok { l with given := l.given ++ [(o.name, value)], pending := none }

/-- Stops after the pending option was looked at. -/
def stop (l : Level) (s : Stop) : Except Stop Level := do
  let _ ← l.settle
  throw s

/-- Reads an option by its name. -/
def readLong (l : Level) (name : String) (value : Option String) : Except Stop Level := do
  match l.options.find? fun o => o.name == name with
  | some o =>
    let l ← l.settle
    let l := { l with pending := some (o, value) }
    if value.isSome then l.settle else return l
  | none =>
    if value.isSome then throw .usage
    else if name = "help" then l.stop (.help l.topic)
    else if name = "version" ∧ l.topic = .program then l.stop .version
    else throw .usage

/-- Reads a flag. -/
def readShort (l : Level) (flag : Char) : Except Stop Level :=
  if flag = 'h' then l.stop (.help l.topic)
  else if flag = 'V' ∧ l.topic = .program then l.stop .version
  else .error .usage

/-- Reads an argument that is an option or the value of one. The answer is `none` for any other
argument. -/
def readOption (l : Level) (s : String) : Except Stop (Option Level) :=
  match l.pending, Form.of s with
  | some (o, none), .plain => .ok (some { l with pending := some (o, some s) })
  | some (_, none), _ => .error .usage
  | _, .long name value => (l.readLong name value).map some
  | _, .short flag => (l.readShort flag).map some
  | _, .separator | _, .plain => .ok none

/-- Reads an argument without an option. -/
def readArgument (l : Level) (spec : Option ArgumentSpec) (s : String) : Except Stop Level :=
  match spec, l.argument with
  | some spec, none =>
    if spec.kind.accepts s then .ok { l with argument := some s } else .error .usage
  | _, _ => .error .usage

/-- Reads the arguments after a subcommand. -/
def readAll (l : Level) (spec : Option ArgumentSpec) : List String → Except Stop Level
  | [] => l.settle
  | s :: rest => do
    match ← l.readOption s with
    | some l => readAll l spec rest
    | none =>
      if Form.of s = .separator then
        let l ← rest.foldlM (fun l s => l.readArgument spec s) l
        l.settle
      else readAll (← l.readArgument spec s) spec rest

/-- The value of an option, which may be its default. -/
def value? (l : Level) (o : OptionSpec) : Option String :=
  (l.given.lookup o.name).or o.default

end Level

/-! ### The whole line -/

/-- What the arguments after the subcommand that prints help ask for. -/
def helpOn : List String → Stop
  | [] => .help .program
  | [s] =>
    match CommandName.ofText? s with
    | some c => .help (.command c)
    | none => if s = helpName then .help .helpCommand else .usage
  | _ => .usage

/-- The command of a subcommand whose arguments were read. There is none if a value is missing. -/
def Command.ofLevel? (l : Level) : CommandName → Option Command
  | .init => return .init (← l.value? pathOption)
  | .create => return .create (← l.value? idOption) (← l.value? formulaOption)
  | .ingest => return .ingest (← l.value? fileOption)
  | .minimize => return .minimize (← l.value? bareFormulaOption)
  | .show => return .show (← l.argument)
  | .info => some .info
  | .export => some .export

/-- The invocation of a subcommand, given both levels. -/
def Invocation.ofLevels (outer inner : Level) (command : Command) : Invocation where
  config := (inner.value? configOption).or (outer.value? configOption)
  dataDir := (inner.value? dataDirOption).or (outer.value? dataDirOption)
  maxAttributes :=
    ((inner.value? maxAttributesOption).or (outer.value? maxAttributesOption)).bind readNumber?
  command := command

/-- Reads the arguments from before the subcommand on. The last option before the subcommand is
looked at when all has been read. -/
def Invocation.read (l : Level) : List String → Except Stop Invocation
  | [] => .error .usage
  | s :: rest => do
    match ← l.readOption s with
    | some l => read l rest
    | none =>
      match CommandName.ofText? s with
      | some c =>
        let inner ← (Level.command c).readAll c.spec.argument rest
        let some command := Command.ofLevel? inner c | throw .usage
        return .ofLevels (← l.settle) inner command
      | none => throw (if s = helpName then helpOn rest else .usage)

/-- Reads the arguments of the program. -/
def Invocation.ofArguments (args : List String) : Except Stop Invocation :=
  read .program args

end CommandLine

end RulePaths
