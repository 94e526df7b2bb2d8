import RulePaths.Graph.Record

/-!
# Snapshots

A snapshot is a copy of all nodes and edges of a graph, in the order of their numbers. All
that is read from a graph as a whole is read from a snapshot. Where a number or a name
occurs more than once, the first record counts.
-/

namespace RulePaths

/-- All nodes and edges of a graph. -/
structure Snapshot where
  nodes : List NodeRecord
  edges : List EdgeRecord
deriving DecidableEq, Inhabited

/-- How many nodes and edges of each kind a graph has. -/
structure Counts where
  rules : Nat
  paths : Nat
  attributes : Nat
  inPathEdges : Nat
  hasRuleEdges : Nat
deriving DecidableEq, Inhabited

namespace Snapshot

/-- The graph without nodes. -/
def empty : Snapshot := ⟨[], []⟩

/-- The node of a kind with a key. -/
def node? (s : Snapshot) (kind : NodeKind) (key : String) : Option NodeRecord :=
  s.nodes.find? fun n => n.kind == kind && n.key == key

/-- The node with a number. -/
def nodeById? (s : Snapshot) (id : Nat) : Option NodeRecord :=
  s.nodes.find? fun n => n.id == id

/-- The edge with a number. -/
def edgeById? (s : Snapshot) (id : Nat) : Option EdgeRecord :=
  s.edges.find? fun e => e.id == id

/-- The key of the node with a number. -/
def keyOf? (s : Snapshot) (id : Nat) : Option String :=
  (s.nodeById? id).map NodeRecord.key

/-- The nodes of a kind. -/
def nodesOf (s : Snapshot) (kind : NodeKind) : List NodeRecord :=
  s.nodes.filter fun n => n.kind == kind

/-- The edges of a kind. -/
def edgesOf (s : Snapshot) (kind : EdgeKind) : List EdgeRecord :=
  s.edges.filter fun e => e.kind == kind

/-- The edges of a kind that end at a node. -/
def edgesInto (s : Snapshot) (kind : EdgeKind) (target : Nat) : List EdgeRecord :=
  (s.edgesOf kind).filter fun e => e.target == target

/-- The edges of a kind that start at a node. -/
def edgesOutOf (s : Snapshot) (kind : EdgeKind) (source : Nat) : List EdgeRecord :=
  (s.edgesOf kind).filter fun e => e.source == source

/-- How many nodes and edges of each kind there are. -/
def counts (s : Snapshot) : Counts where
  rules := (s.nodesOf .rule).length
  paths := (s.nodesOf .path).length
  attributes := (s.nodesOf .attr).length
  inPathEdges := (s.edgesOf .inPath).length
  hasRuleEdges := (s.edgesOf .hasRule).length

end Snapshot

end RulePaths
