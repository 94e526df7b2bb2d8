import RulePaths.Graph.Snapshot
import RulePaths.Json.Value

/-!
# Snapshots in JSON

A snapshot is written as an object with its nodes and its edges. Kinds are written by their names
and properties as the members of an object. What is read has to have every field, and may have
others, which are ignored.
-/

namespace RulePaths

open Json (Value)

/-- The kind of nodes with a name. -/
def NodeKind.ofText? (name : String) : Option NodeKind :=
  [NodeKind.rule, .path, .attr].find? fun kind => kind.text = name

/-- The kind of edges with a name. -/
def EdgeKind.ofText? (name : String) : Option EdgeKind :=
  [EdgeKind.inPath, .hasRule].find? fun kind => kind.text = name

/-- Properties as an object. -/
def Properties.toJson (p : Properties) : Value :=
  .ofMembers (p.entries.map fun (name, value) => (name, .ofString value))

/-- The property that a member of an object holds. -/
def propertyOfJson? (member : Json.Symbols × Value) : Option (String × String) := do
  return (← member.1.toString?, ← member.2.toString?)

/-- The properties that an object holds. Of several with one name the last counts. -/
def Properties.ofJson? : Value → Option Properties
  | .object members => (members.mapM propertyOfJson?).map .ofList
  | _ => none

/-- A node as an object. -/
def NodeRecord.toJson (n : NodeRecord) : Value :=
  .ofMembers [("id", .ofNat n.id), ("kind", .ofString n.kind.text), ("key", .ofString n.key),
    ("properties", Properties.toJson n.properties)]

/-- The node that a JSON value holds. -/
def NodeRecord.ofJson? (v : Value) : Option NodeRecord := do
  let [id, kind, key, properties] ← v.fields? ["id", "kind", "key", "properties"] | none
  return ⟨← id.toNat?, ← NodeKind.ofText? (← kind.toChoice?), ← key.toString?,
    ← Properties.ofJson? properties⟩

/-- An edge as an object. -/
def EdgeRecord.toJson (e : EdgeRecord) : Value :=
  .ofMembers [("id", .ofNat e.id), ("kind", .ofString e.kind.text), ("from", .ofNat e.source),
    ("to", .ofNat e.target), ("properties", Properties.toJson e.properties)]

/-- The edge that a JSON value holds. -/
def EdgeRecord.ofJson? (v : Value) : Option EdgeRecord := do
  let [id, kind, source, target, properties] ←
    v.fields? ["id", "kind", "from", "to", "properties"] | none
  return ⟨← id.toNat?, ← EdgeKind.ofText? (← kind.toChoice?), ← source.toNat?, ← target.toNat?,
    ← Properties.ofJson? properties⟩

/-- A snapshot as an object. -/
def Snapshot.toJson (s : Snapshot) : Value :=
  .ofMembers [("nodes", .ofList NodeRecord.toJson s.nodes),
    ("edges", .ofList EdgeRecord.toJson s.edges)]

/-- The snapshot that a JSON value holds. -/
def Snapshot.ofJson? (v : Value) : Option Snapshot := do
  let [nodes, edges] ← v.fields? ["nodes", "edges"] | none
  return ⟨← nodes.toList? NodeRecord.ofJson?, ← edges.toList? EdgeRecord.ofJson?⟩

end RulePaths
