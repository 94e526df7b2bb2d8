import RulePaths.Graph.GraphStore
import RulePaths.Graph.RecordBytes

/-!
# The store in tables

The durable form of a graph is four ordered tables. Nodes are kept as bytes under their kind
and key, which is also what makes these unique; a second table leads from node numbers to the
names in the first. Edges are kept as bytes under their numbers, and counters hold the next
numbers.

A transaction works on a copy of the tables that replaces them when it is committed. Records
with numbers below the counters it started from are read-only. It finds nodes by their kind
and key, and looks at the number of a node reference only where an edge ends.

Any call that comes across bytes that do not make a record fails.
-/

namespace RulePaths

/-- The tables of a durable graph. -/
structure Tables where
  /-- Nodes by kind and key. -/
  nodes : Table String Bytes
  /-- The name of every node by its number. -/
  nodeKeys : Table Nat String
  /-- Edges by number. -/
  edges : Table Nat Bytes
  /-- The next number of a node and the next number of an edge. -/
  counters : Table String Nat
deriving DecidableEq, Inhabited

/-- An open transaction: its copy of the tables, and the counters it started from. -/
structure TablesTxn where
  tables : Tables
  baseNode : Nat
  baseEdge : Nat
deriving DecidableEq, Inhabited

namespace Tables

/-- Tables without entries. -/
def empty : Tables := ⟨.empty, .empty, .empty, .empty⟩

/-- The counter for nodes. -/
def nextNode : String := "next_node"

/-- The counter for edges. -/
def nextEdge : String := "next_edge"

/-- The value of a counter, which starts at zero. -/
def counter (t : Tables) (name : String) : Nat :=
  (t.counters.get? name).getD 0

/-- The number after a number of a counter. Counters have 64 bits and start again at zero. -/
def next (n : Nat) : Nat :=
  (n + 1) % (1 <<< 64)

/-- The node that some bytes make. -/
def readNode (bytes : Bytes) : Except StoreError NodeRecord :=
  match RecordBytes.decodeNode? bytes with
  | some n => .ok n
  | none => .error (.malformedRecord "failed to decode record: not a node")

/-- The edge that some bytes make. -/
def readEdge (bytes : Bytes) : Except StoreError EdgeRecord :=
  match RecordBytes.decodeEdge? bytes with
  | some e => .ok e
  | none => .error (.malformedRecord "failed to decode record: not an edge")

/-- The node under a name. -/
def loadNode (t : Tables) (composite : String) : Except StoreError (Option NodeRecord) :=
  match t.nodes.get? composite with
  | none => .ok none
  | some bytes => (readNode bytes).map some

/-- The edge under a number. -/
def loadEdge (t : Tables) (id : Nat) : Except StoreError (Option EdgeRecord) :=
  match t.edges.get? id with
  | none => .ok none
  | some bytes => (readEdge bytes).map some

/-- The tables with a node put under its own name. -/
def storeNode (t : Tables) (n : NodeRecord) : Tables :=
  { t with nodes := t.nodes.insert n.composite (RecordBytes.encodeNode n) }

/-- The tables with an edge put under its own number. -/
def storeEdge (t : Tables) (e : EdgeRecord) : Tables :=
  { t with edges := t.edges.insert e.id (RecordBytes.encodeEdge e) }

/-- All nodes by number and all edges. -/
def toSnapshot (t : Tables) : Except StoreError Snapshot := do
  let nodes ← t.nodes.entries.mapM fun e => readNode e.2
  let edges ← t.edges.entries.mapM fun e => readEdge e.2
  return ⟨nodes.mergeSort fun a b => a.id ≤ b.id, edges⟩

/-- A transaction that has not done anything. -/
def start (t : Tables) : TablesTxn :=
  ⟨t, t.counter nextNode, t.counter nextEdge⟩

end Tables

namespace TablesTxn

/-- The node of a kind with a key. -/
def find? (t : TablesTxn) (kind : NodeKind) (key : String) :
    Except StoreError (Option NodeRef) :=
  (t.tables.loadNode (compositeKey kind key)).map (Option.map NodeRecord.toRef)

/-- Creates a node under the next number, unless there is one of its kind with its key. -/
def create (t : TablesTxn) (kind : NodeKind) (key : String) :
    Except StoreError (NodeRef × TablesTxn) := do
  match ← t.tables.loadNode (compositeKey kind key) with
  | some _ => throw (.alreadyExists kind key)
  | none =>
    let id := t.tables.counter Tables.nextNode
    let node := NodeRecord.new id kind key
    let tables := { t.tables with
      counters := t.tables.counters.insert Tables.nextNode (Tables.next id)
      nodeKeys := t.tables.nodeKeys.insert id node.composite }
    return (node.toRef, { t with tables := tables.storeNode node })

/-- Sets a property of a node that the transaction created. -/
def setNode (t : TablesTxn) (node : NodeRef) (name value : String) :
    Except StoreError TablesTxn := do
  match ← t.tables.loadNode node.composite with
  | none => throw (.notFound node.composite)
  | some n =>
    if n.id < t.baseNode then throw (.immutable node.composite)
    return { t with tables := t.tables.storeNode (n.setProperty name value) }

/-- Whether a number belongs to a node. -/
def knowsNode (t : TablesTxn) (id : Nat) : Bool :=
  (t.tables.nodeKeys.get? id).isSome

/-- Creates an edge under the next number, unless one of its ends is unknown. -/
def link (t : TablesTxn) (kind : EdgeKind) (source target : NodeRef) :
    Except StoreError (Nat × TablesTxn) :=
  if !t.knowsNode source.id then .error (.notFound source.composite)
  else if !t.knowsNode target.id then .error (.notFound target.composite)
  else
    let id := t.tables.counter Tables.nextEdge
    let tables := { t.tables with
      counters := t.tables.counters.insert Tables.nextEdge (Tables.next id) }
    .ok (id, { t with tables := tables.storeEdge (.new id kind source.id target.id) })

/-- Sets a property of an edge that the transaction created. -/
def setEdge (t : TablesTxn) (edge : Nat) (name value : String) :
    Except StoreError TablesTxn := do
  match ← t.tables.loadEdge edge with
  | none => throw (.notFound (edgeHandle edge))
  | some e =>
    if edge < t.baseEdge then throw (.immutable (edgeHandle edge))
    return { t with tables := t.tables.storeEdge (e.setProperty name value) }

/-- One call of a transaction: its answer and the transaction after it. -/
def perform (t : TablesTxn) : (c : TxnCall) → Except StoreError (c.Answer × TablesTxn)
  | .find kind key => (t.find? kind key).map (·, t)
  | .create kind key => t.create kind key
  | .setNode node name value => (t.setNode node name value).map ((), ·)
  | .link kind source target => t.link kind source target
  | .setEdge edge name value => (t.setEdge edge name value).map ((), ·)

end TablesTxn

instance : GraphStore Tables TablesTxn where
  lookup kind key := StoreM.read fun s => s.loadNode (compositeKey kind key)
  snapshot := StoreM.read Tables.toSnapshot
  start := StoreM.read fun s => .ok s.start
  perform c := fun w =>
    match TablesTxn.perform w.2 c with
    | .ok (answer, t) => (.ok answer, (w.1, t))
    | .error e => (.error e, w)
  commit t := fun _ => (.ok (), t.tables)
  rollback _ := pure ()

end RulePaths
