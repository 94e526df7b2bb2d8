import RulePaths.Graph.GraphStore

/-!
# The store in memory

The committed graph is two arrays of records, in which every record stands at the place of
its number, and an index from kinds and keys to places. A transaction keeps what it creates
in arrays of its own. Its numbers continue those of the committed records, whose count is
fixed while the transaction is open.

The transaction goes by the number of a node reference and does not look at its kind and
key, except to name the node in errors.
-/

namespace RulePaths

/-- The places of nodes by kind and key. -/
abbrev NodeIndex := List ((NodeKind × String) × Nat)

/-- A graph in memory. -/
structure MemoryStore where
  nodes : Array NodeRecord
  edges : Array EdgeRecord
  index : NodeIndex
deriving DecidableEq, Inhabited

/-- An open transaction: how many nodes and edges were committed when it started, and what it
has created since. -/
structure MemoryTxn where
  baseNodes : Nat
  baseEdges : Nat
  nodes : Array NodeRecord
  edges : Array EdgeRecord
  index : NodeIndex
deriving DecidableEq, Inhabited

namespace MemoryStore

/-- The store without nodes. -/
def empty : MemoryStore := ⟨#[], #[], []⟩

/-- The committed node of a kind with a key. -/
def find? (s : MemoryStore) (kind : NodeKind) (key : String) : Option NodeRecord := do
  s.nodes[← s.index.lookup (kind, key)]?

/-- All that is committed. -/
def toSnapshot (s : MemoryStore) : Snapshot :=
  ⟨s.nodes.toList, s.edges.toList⟩

/-- A transaction that has not done anything. -/
def start (s : MemoryStore) : MemoryTxn :=
  ⟨s.nodes.size, s.edges.size, #[], #[], []⟩

/-- The index with a node that is put at the next place. -/
def addToIndex (place : Nat) (index : NodeIndex) : List NodeRecord → NodeIndex
  | [] => index
  | n :: ns => addToIndex (place + 1) (((n.kind, n.key), place) :: index) ns

/-- The store with all that a transaction has created. -/
def commit (s : MemoryStore) (t : MemoryTxn) : MemoryStore where
  nodes := s.nodes ++ t.nodes
  edges := s.edges ++ t.edges
  index := addToIndex s.nodes.size s.index t.nodes.toList

end MemoryStore

namespace MemoryTxn

/-- The node of a kind with a key that the transaction created. -/
def staged? (t : MemoryTxn) (kind : NodeKind) (key : String) : Option NodeRecord := do
  t.nodes[← t.index.lookup (kind, key)]?

/-- The node of a kind with a key, created by the transaction or committed. -/
def find? (s : MemoryStore) (t : MemoryTxn) (kind : NodeKind) (key : String) : Option NodeRef :=
  ((t.staged? kind key).or (s.find? kind key)).map NodeRecord.toRef

/-- Whether a number belongs to a node, committed or created by the transaction. -/
def knowsNode (t : MemoryTxn) (id : Nat) : Bool :=
  id < t.baseNodes + t.nodes.size

/-- Creates a node under the next number, unless there is one of its kind with its key. -/
def create (s : MemoryStore) (t : MemoryTxn) (kind : NodeKind) (key : String) :
    Except StoreError (NodeRef × MemoryTxn) :=
  if (t.find? s kind key).isSome then .error (.alreadyExists kind key)
  else
    let node := NodeRecord.new (t.baseNodes + t.nodes.size) kind key
    .ok (node.toRef, { t with
      nodes := t.nodes.push node
      index := ((kind, key), t.nodes.size) :: t.index })

/-- Sets a property of a node that the transaction created. -/
def setNode (t : MemoryTxn) (node : NodeRef) (name value : String) :
    Except StoreError MemoryTxn :=
  if node.id < t.baseNodes then .error (.immutable node.composite)
  else if node.id - t.baseNodes < t.nodes.size then
    .ok { t with
      nodes := t.nodes.modify (node.id - t.baseNodes) fun n => n.setProperty name value }
  else .error (.notFound node.composite)

/-- Creates an edge under the next number, unless one of its ends is unknown. -/
def link (t : MemoryTxn) (kind : EdgeKind) (source target : NodeRef) :
    Except StoreError (Nat × MemoryTxn) :=
  if !t.knowsNode source.id then .error (.notFound source.composite)
  else if !t.knowsNode target.id then .error (.notFound target.composite)
  else
    let id := t.baseEdges + t.edges.size
    .ok (id, { t with edges := t.edges.push (.new id kind source.id target.id) })

/-- Sets a property of an edge that the transaction created. -/
def setEdge (t : MemoryTxn) (edge : Nat) (name value : String) : Except StoreError MemoryTxn :=
  if edge < t.baseEdges then .error (.immutable (edgeHandle edge))
  else if edge - t.baseEdges < t.edges.size then
    .ok { t with
      edges := t.edges.modify (edge - t.baseEdges) fun e => e.setProperty name value }
  else .error (.notFound (edgeHandle edge))

/-- One call of a transaction: its answer and the transaction after it. -/
def perform (s : MemoryStore) (t : MemoryTxn) :
    (c : TxnCall) → Except StoreError (c.Answer × MemoryTxn)
  | .find kind key => .ok (t.find? s kind key, t)
  | .create kind key => t.create s kind key
  | .setNode node name value => (t.setNode node name value).map ((), ·)
  | .link kind source target => t.link kind source target
  | .setEdge edge name value => (t.setEdge edge name value).map ((), ·)

end MemoryTxn

instance : GraphStore MemoryStore MemoryTxn where
  lookup kind key := StoreM.read fun s => .ok (s.find? kind key)
  snapshot := StoreM.read fun s => .ok s.toSnapshot
  start := StoreM.read fun s => .ok s.start
  perform c := fun w =>
    match MemoryTxn.perform w.1 w.2 c with
    | .ok (answer, t) => (.ok answer, (w.1, t))
    | .error e => (.error e, w)
  commit t := fun s => (.ok (), s.commit t)
  rollback _ := pure ()

end RulePaths
