import RulePaths.Graph.RecordBytes

/-!
# Files

A tree of directories and files, and the directory in it that one works in. A path is a text with
the names on the way from the working directory, or from the root if it starts with `/`, separated
by `/`. Empty names and `.` lead nowhere and `..` leads up, but nothing follows a name that is no
directory, not even a `/` at the end of the path.

Paths and names have a greatest length. The empty text and texts with the character zero are no
paths.
-/

namespace RulePaths

/-- A place in the tree: the names that lead to it from the root. -/
abbrev Place := List String

/-- What stands at a place. -/
inductive FileEntry where
  | directory
  | file (content : Bytes)
deriving DecidableEq, Inhabited

/-- A tree of directories and files, with the place of the working directory. The root has no
entry. -/
structure Files where
  entries : Table Place FileEntry
  working : Place
deriving DecidableEq, Inhabited

namespace Files

/-- The tree without files. One works in its root. -/
def empty : Files := ⟨.empty, []⟩

/-- What stands at a place. -/
def at? (f : Files) (place : Place) : Option FileEntry :=
  if place = [] then some .directory else f.entries.get? place

/-- The tree with something put at a place. -/
def put (f : Files) (place : Place) (entry : FileEntry) : Files :=
  { f with entries := f.entries.insert place entry }

/-- Whether a place is a directory. -/
def isDirectory (f : Files) (place : Place) : Bool :=
  f.at? place == some .directory

/-- The place that a name leads to. Above the root there is the root. -/
def step (here : Place) (name : String) : Place :=
  if name = "." then here
  else if name = ".." then here.dropLast
  else here ++ [name]

/-- The greatest number of bytes in a path. -/
def pathLimit : Nat := 4095

/-- The greatest number of bytes in a name. -/
def nameLimit : Nat := 255

/-- Whether a text is a path. -/
def isPath (path : String) : Bool :=
  path ≠ "" && path.utf8ByteSize ≤ pathLimit && !path.toList.contains '\x00'

/-- Whether a path ends with `/`. -/
def endsInSlash (path : String) : Bool :=
  path.toList.getLast? == some '/'

/-- Where a path starts, and the names in it. -/
def names (f : Files) (path : String) : Place × List String :=
  let cs := path.toList
  let pieces := (cs.splitOnP (· == '/')).filter (!·.isEmpty)
  let start := if cs.head? = some '/' then [] else f.working
  (start, pieces.map String.ofList)

/-- The place that some names lead to from a place. Every name but the last has to lead to a
directory. -/
def walk (f : Files) (here : Place) : List String → Option Place
  | [] => some here
  | name :: rest => if f.isDirectory here then f.walk (step here name) rest else none

/-- The place of a path. -/
def locate (f : Files) (path : String) : Option Place := do
  if !isPath path then none
  let (start, names) := f.names path
  let place ← f.walk start names
  if endsInSlash path && !f.isDirectory place then none else some place

/-- Whether there is a file or a directory at a path. -/
def exists? (f : Files) (path : String) : Bool :=
  ((f.locate path).bind f.at?).isSome

/-- The bytes of the file at a path. -/
def read? (f : Files) (path : String) : Option Bytes :=
  match (f.locate path).bind f.at? with
  | some (.file content) => some content
  | _ => none

/-- The text of the file at a path, if its bytes are a text. -/
def readText? (f : Files) (path : String) : Option String :=
  (f.read? path).bind RecordBytes.ofUtf8?

/-- The tree with a file written in a directory that exists. A file that was there is
replaced. -/
def write? (f : Files) (path : String) (content : Bytes) : Option Files := do
  let place ← f.locate path
  let name ← place.getLast?
  if f.isDirectory place || !f.isDirectory place.dropLast || nameLimit < name.utf8ByteSize then none
  else some (f.put place (.file content))

/-- The tree with a text written to a file. -/
def writeText? (f : Files) (path text : String) : Option Files :=
  f.write? path (RecordBytes.utf8 text)

/-- Makes the directories on the way that some names lead from a place, and tells whether all of
them are there now. None is made for a name with nothing but `.` after it, since a final `.` asks
for a directory that is there. -/
def makeDirectories (f : Files) (here : Place) : List String → Bool × Files
  | [] => (true, f)
  | name :: rest =>
    let next := step here name
    match f.at? next with
    | some .directory => f.makeDirectories next rest
    | some (.file _) => (false, f)
    | none =>
      if nameLimit < name.utf8ByteSize || (rest ≠ [] && rest.all (· == ".")) then (false, f)
      else (f.put next .directory).makeDirectories next rest

/-- Makes the directories of a path, and tells whether all of them are there now. Those that were
made before something stood in the way stay. The empty text asks for none. -/
def createDirectories (path : String) : StateM Files Bool := fun f =>
  if path = "" then (true, f)
  else if isPath path then
    let (start, names) := f.names path
    f.makeDirectories start names
  else (false, f)

/-! ### Texts of paths -/

/-- A path without the `/` and `/.` at its end, last character first. -/
def trimEnd : List Char → List Char
  | '/' :: cs => trimEnd cs
  | '.' :: '/' :: cs => trimEnd cs
  | cs => cs

/-- The text of the path above a path, if there is one. -/
def parent? (path : String) : Option String :=
  match trimEnd path.toList.reverse with
  | [] => none
  | last =>
    let rest := trimEnd (last.dropWhile (· != '/'))
    if rest = [] ∧ path.toList.head? = some '/' then some "/"
    else some (String.ofList rest.reverse)

/-- The path to a name in a directory. -/
def join (dir name : String) : String :=
  if dir.isEmpty || endsInSlash dir then dir ++ name else dir ++ "/" ++ name

end Files

end RulePaths
