/-!
# What a TOML document defines

A document defines keys, and tables that hold more keys. A table may be opened by a header,
be implied by a header of a table inside it, be made by a dotted key, or be one of a list of
tables. The rules on what may be defined when are those of `Scope`:

* a key is defined once;
* a header opens a table that does not exist yet or was only implied, and a header for a list
  of tables starts the list or adds to it;
* a dotted key makes tables, or goes through tables that no header opened, but the key that it
  defines has to be in a table that was made by dotted keys.
-/

namespace RulePaths

namespace Toml

/-- What a key of a document can hold, as far as settings are concerned. -/
inductive Value where
  | text (s : String)
  | integer (n : Int)
  /-- A float, a truth value, a date, an array or a table. -/
  | other
deriving DecidableEq, Inhabited

/-- What is known of a place in a document. -/
inductive Definition where
  /-- A key with its value. -/
  | value (v : Value)
  /-- A table opened by a header. -/
  | table
  /-- A table that some header goes through. -/
  | implied
  /-- A table made by a dotted key. -/
  | dotted
  /-- A list of tables. -/
  | tables (count : Nat)
deriving DecidableEq, Inhabited

/-- A place in a document: the names that lead to it. With a name goes the number of the table
in a list of tables, counted from one, and zero if there is no list. -/
abbrev Site := List (String × Nat)

/-- The places of a document that have been defined, the last one first. -/
abbrev Scope := List (Site × Definition)

namespace Scope

/-- The scope with one more definition. -/
def define (s : Scope) (site : Site) (d : Definition) : Scope :=
  (site, d) :: s

/-- What a name in a table stands for. -/
def find? (s : Scope) (site : Site) (name : String) : Option Definition :=
  s.lookup (site ++ [(name, 0)])

/-- Goes from a table to the table of a name in it, which is made if there is none. The last
one is taken of a list of tables. `dotted` says whether the name is in a key or in a header. -/
def enter (dotted : Bool) (s : Scope) (site : Site) (name : String) : Option (Scope × Site) :=
  let next := site ++ [(name, 0)]
  match s.find? site name with
  | none => some (s.define next (if dotted then .dotted else .implied), next)
  | some (.value _) => none
  | some (.tables count) => some (s, site ++ [(name, count)])
  | some .table => if dotted then none else some (s, next)
  | some .implied | some .dotted => some (s, next)

/-- Goes through some names from a table. -/
def enterAll (dotted : Bool) (s : Scope) (site : Site) (names : List String) :
    Option (Scope × Site) :=
  names.foldlM (fun (s, site) name => s.enter dotted site name) (s, site)

/-- Defines a key in a table. -/
def defineKey (s : Scope) (site : Site) (key : List String) (v : Value) : Option Scope := do
  let name ← key.getLast?
  let (s, target) ← s.enterAll true site key.dropLast
  if key.dropLast ≠ [] ∧ s.lookup target ≠ some .dotted then none
  else if (s.find? target name).isSome then none
  else return s.define (target ++ [(name, 0)]) (.value v)

/-- Opens the table of a header. The answer has the place of the table. -/
def openTable (s : Scope) (header : List String) : Option (Scope × Site) := do
  let name ← header.getLast?
  let (s, site) ← s.enterAll false [] header.dropLast
  let target := site ++ [(name, 0)]
  match s.find? site name with
  | none | some .implied => return (s.define target .table, target)
  | _ => none

/-- Adds a table to the list of tables of a header. The answer has the place of the table. -/
def addTable (s : Scope) (header : List String) : Option (Scope × Site) := do
  let name ← header.getLast?
  let (s, site) ← s.enterAll false [] header.dropLast
  let target := site ++ [(name, 0)]
  match s.find? site name with
  | none => return (s.define target (.tables 1), site ++ [(name, 1)])
  | some (.tables count) =>
    return (s.define target (.tables (count + 1)), site ++ [(name, count + 1)])
  | _ => none

end Scope

end Toml

end RulePaths
