import RulePaths.Files
import RulePaths.Graph.TableStore

/-!
# The file of a durable store

A durable store keeps its tables in one file of its directory: a mark that no text starts
with, and then the four tables, each as the number of its entries followed by keys and
values. An empty file holds empty tables. Any other file is no store.

The format stands for the one of a database. Nothing is relied on but that the tables committed
last come back when the file is opened.
-/

namespace RulePaths

namespace TablesFile

open RecordBytes

/-- The name of the file in the directory of the store. -/
def name : String := "rulegraph.redb"

/-- The bytes that such a file starts with. -/
def mark : Bytes := 0xFF :: utf8 "tables" ++ [1]

/-- Bytes after their number. -/
def writeBlob (bytes : Bytes) : Bytes :=
  writeNumber 8 bytes.length ++ bytes

/-- Reads bytes after their number. -/
def readBlob : ByteReader Bytes := fun bytes => do
  let (length, rest) ← readNumber 8 bytes
  if length ≤ rest.length then return (rest.take length, rest.drop length) else none

/-- The entries of a table after their number. -/
def writeTable {κ ν : Type} [Ord κ] (key : κ → Bytes) (value : ν → Bytes) (t : Table κ ν) :
    Bytes :=
  writeNumber 8 t.entries.length ++ t.entries.flatMap fun (k, v) => key k ++ value v

/-- Reads a given number of entries. -/
def readEntries {κ ν : Type} (key : ByteReader κ) (value : ByteReader ν) :
    Nat → ByteReader (List (κ × ν))
  | 0, bytes => some ([], bytes)
  | n + 1, bytes => do
    let (k, rest) ← key bytes
    let (v, rest) ← value rest
    let (more, rest) ← readEntries key value n rest
    return ((k, v) :: more, rest)

/-- Reads the entries of a table after their number. -/
def readTable {κ ν : Type} [Ord κ] [Std.TransOrd κ] (key : ByteReader κ) (value : ByteReader ν) :
    ByteReader (Table κ ν) := fun bytes => do
  let (count, rest) ← readNumber 8 bytes
  let (entries, rest) ← readEntries key value count rest
  return (Table.ofList entries, rest)

/-- The content of the file for some tables. -/
def encode (t : Tables) : Bytes :=
  mark ++ writeTable writeText writeBlob t.nodes ++
    writeTable (writeNumber 8) writeText t.nodeKeys ++
    writeTable (writeNumber 8) writeBlob t.edges ++ writeTable writeText (writeNumber 8) t.counters

/-- The tables that a file holds. -/
def decode? (bytes : Bytes) : Option Tables :=
  if bytes = [] then some .empty
  else if bytes.take mark.length ≠ mark then none
  else do
    let (nodes, rest) ← readTable readText readBlob (bytes.drop mark.length)
    let (nodeKeys, rest) ← readTable (readNumber 8) readText rest
    let (edges, rest) ← readTable (readNumber 8) readBlob rest
    let (counters, rest) ← readTable readText (readNumber 8) rest
    if rest = [] then some ⟨nodes, nodeKeys, edges, counters⟩ else none

/-- The path of the file in a directory. -/
def pathIn (dir : String) : String := Files.join dir name

/-- Opens the store in a directory. The directory and the file are made if they are missing,
and stay where they were made even if what follows fails. -/
def openIn (files : Files) (dir : String) : Except StoreError Tables × Files :=
  let path := pathIn dir
  let failed : Except StoreError Tables := .error (.database ("failed to open " ++ path))
  match Files.createDirectories dir files with
  | (false, files) => (.error (.fileSystem ("cannot create " ++ dir)), files)
  | (true, files) =>
    let content := (files.read? path).orElse fun _ => if files.exists? path then none else some []
    match content.bind decode? with
    | none => (failed, files)
    | some tables =>
      match files.write? path (encode tables) with
      | none => (failed, files)
      | some files => (.ok tables, files)

/-- The files with the tables of the store in a directory brought up to date. -/
def saveIn (files : Files) (dir : String) (t : Tables) : Files :=
  (files.write? (pathIn dir) (encode t)).getD files

end TablesFile

end RulePaths
