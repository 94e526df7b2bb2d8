import RulePaths.Graph.Record

/-!
# Records as bytes

The byte form in which a store keeps nodes and edges. Numbers have a fixed width and their
lowest byte first: eight bytes for ids and lengths, four for kinds. A text is its length in
bytes and its UTF-8 bytes. Properties are their count and then names and values, ascending
by name when written. When they are read any order will do, and of several properties with
one name the last counts.

A reader takes a value off the front of some bytes and leaves the rest. Bytes after a record
are ignored.
-/

namespace RulePaths

abbrev Bytes := List UInt8

/-- Takes a value off the front of some bytes, unless they do not start with one. -/
abbrev ByteReader (α : Type) := Bytes → Option (α × Bytes)

namespace RecordBytes

/-! ### Numbers and texts -/

/-- A number in `width` bytes, the lowest first. -/
def writeNumber : (width : Nat) → Nat → Bytes
  | 0, _ => []
  | width + 1, n => UInt8.ofNat n :: writeNumber width (n / 256)

/-- Reads a number of `width` bytes, the lowest first. -/
def readNumber : (width : Nat) → ByteReader Nat
  | 0, bytes => some (0, bytes)
  | _ + 1, [] => none
  | width + 1, b :: bytes => do
    let (n, rest) ← readNumber width bytes
    return (b.toNat + 256 * n, rest)

/-- The UTF-8 bytes of a text. -/
def utf8 (s : String) : Bytes :=
  s.toUTF8.data.toList

/-- The text with the given UTF-8 bytes. -/
def ofUtf8? (bytes : Bytes) : Option String :=
  String.fromUTF8? ⟨bytes.toArray⟩

/-- A text after its length. -/
def writeText (s : String) : Bytes :=
  writeNumber 8 s.utf8ByteSize ++ utf8 s

/-- Reads a text after its length. -/
def readText : ByteReader String := fun bytes => do
  let (length, rest) ← readNumber 8 bytes
  if length ≤ rest.length then
    let s ← ofUtf8? (rest.take length)
    return (s, rest.drop length)
  else none

/-! ### Properties -/

/-- Properties after their number. -/
def writeProperties (ps : Properties) : Bytes :=
  writeNumber 8 ps.entries.length ++
    ps.entries.flatMap fun (name, value) => writeText name ++ writeText value

/-- Reads a given number of names and values, in the order in which they come. -/
def readEntries : Nat → ByteReader (List (String × String))
  | 0, bytes => some ([], bytes)
  | n + 1, bytes => do
    let (name, rest) ← readText bytes
    let (value, rest) ← readText rest
    let (more, rest) ← readEntries n rest
    return ((name, value) :: more, rest)

/-- Reads properties after their number. -/
def readProperties : ByteReader Properties := fun bytes => do
  let (count, rest) ← readNumber 8 bytes
  let (entries, rest) ← readEntries count rest
  return (Table.ofList entries, rest)

/-! ### Kinds -/

/-- The number of a kind of nodes. -/
def nodeKindNumber : NodeKind → Nat
  | .rule => 0
  | .path => 1
  | .attr => 2

/-- The kind of nodes with a number. -/
def nodeKindOfNumber? : Nat → Option NodeKind
  | 0 => some .rule
  | 1 => some .path
  | 2 => some .attr
  | _ => none

/-- The number of a kind of edges. -/
def edgeKindNumber : EdgeKind → Nat
  | .inPath => 0
  | .hasRule => 1

/-- The kind of edges with a number. -/
def edgeKindOfNumber? : Nat → Option EdgeKind
  | 0 => some .inPath
  | 1 => some .hasRule
  | _ => none

/-! ### Records -/

/-- The bytes of a node. -/
def encodeNode (n : NodeRecord) : Bytes :=
  writeNumber 8 n.id ++ writeNumber 4 (nodeKindNumber n.kind) ++ writeText n.key ++
    writeProperties n.properties

/-- Reads a node. -/
def readNode : ByteReader NodeRecord := fun bytes => do
  let (id, rest) ← readNumber 8 bytes
  let (number, rest) ← readNumber 4 rest
  let kind ← nodeKindOfNumber? number
  let (key, rest) ← readText rest
  let (properties, rest) ← readProperties rest
  return (⟨id, kind, key, properties⟩, rest)

/-- The node that some bytes start with. -/
def decodeNode? (bytes : Bytes) : Option NodeRecord :=
  (readNode bytes).map Prod.fst

/-- The bytes of an edge. -/
def encodeEdge (e : EdgeRecord) : Bytes :=
  writeNumber 8 e.id ++ writeNumber 4 (edgeKindNumber e.kind) ++ writeNumber 8 e.source ++
    writeNumber 8 e.target ++ writeProperties e.properties

/-- Reads an edge. -/
def readEdge : ByteReader EdgeRecord := fun bytes => do
  let (id, rest) ← readNumber 8 bytes
  let (number, rest) ← readNumber 4 rest
  let kind ← edgeKindOfNumber? number
  let (source, rest) ← readNumber 8 rest
  let (target, rest) ← readNumber 8 rest
  let (properties, rest) ← readProperties rest
  return (⟨id, kind, source, target, properties⟩, rest)

/-- The edge that some bytes start with. -/
def decodeEdge? (bytes : Bytes) : Option EdgeRecord :=
  (readEdge bytes).map Prod.fst

end RecordBytes

end RulePaths
