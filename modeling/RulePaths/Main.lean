import RulePaths.CommandLine.Run

/-!
# The program

The program copies the files that its arguments speak of from the disk, runs the command line on
the copy, and writes what has changed back to the disk.
-/

namespace RulePaths

namespace Main

/-- The path of a place. -/
def pathOf (place : Place) : String :=
  "/" ++ "/".intercalate place

/-- What stands at a place on the disk. -/
def look (place : Place) : IO (Option FileEntry) := do
  try
    let content ← IO.FS.readBinFile (pathOf place)
    return some (.file content.toList)
  catch
    | .inappropriateType .. => return some .directory
    | _ => return none

/-- The files with a copy of what stands on the way that some names lead from a place. The names
after a missing one are looked at too, since the command may make a directory for it. -/
def fetchNames (files : Files) (here : Place) : List String → IO Files
  | [] => return files
  | name :: rest => do
    let next := Files.step here name
    match ← look next with
    | some .directory => fetchNames (files.put next .directory) next rest
    | some entry => return files.put next entry
    | none => fetchNames files next rest

/-- The files with a copy of what stands on the way of a path. -/
def fetch (files : Files) (path : String) : IO Files := do
  if !Files.isPath path then return files
  let (start, names) := files.names path
  fetchNames files start names

/-- The working directory of the process, and nothing else. -/
def workingDirectory : IO Files := do
  let (_, names) := Files.empty.names (← IO.currentDir).toString
  fetch { Files.empty with working := names } (pathOf names)

/-- A copy of the files that the arguments speak of. -/
def filesFor (args : List String) : IO Files := do
  let files ← workingDirectory
  match CommandLine.Invocation.ofArguments args with
  | .error _ => return files
  | .ok i =>
    let files ← (i.paths files).foldlM fetch files
    (i.paths files).foldlM fetch files

/-- Writes what has changed to the disk. Directories come before what is in them. -/
def save (before after : Files) : IO Unit :=
  after.entries.entries.forM fun (place, entry) => do
    if before.at? place ≠ some entry then
      match entry with
      | .directory => IO.FS.createDirAll (pathOf place)
      | .file content => IO.FS.writeBinFile (pathOf place) ⟨content.toArray⟩

end Main

end RulePaths

open RulePaths in
/-- Runs the program. -/
def main (args : List String) : IO UInt32 := do
  let before ← Main.filesFor args
  let (exit, after) := CommandLine.run args before
  Main.save before after
  IO.print exit.output
  IO.eprint exit.complaint
  return exit.status.toUInt32
