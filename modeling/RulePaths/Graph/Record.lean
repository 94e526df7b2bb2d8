import RulePaths.Table

/-!
# Nodes and edges

The rule graph has nodes for rules, for paths and for attributes. A node is known by its
kind and its key: the rule's id, the path's text or the attribute's number. An edge leads
from the first attribute of a path to the path, or from a path to a rule that it implies.

Stores number nodes and edges in the order in which they were created.
-/

namespace RulePaths

/-- What a node stands for. -/
inductive NodeKind where
  | rule
  | path
  | attr
deriving DecidableEq, Inhabited

/-- What an edge says. -/
inductive EdgeKind where
  /-- The source is the attribute that leads the target path. -/
  | inPath
  /-- The source path implies the target rule. -/
  | hasRule
deriving DecidableEq, Inhabited

/-- The name of a kind of nodes. -/
def NodeKind.text : NodeKind → String
  | .rule => "Rule"
  | .path => "Path"
  | .attr => "Attribute"

/-- The name of a kind of edges. -/
def EdgeKind.text : EdgeKind → String
  | .inPath => "IN_PATH"
  | .hasRule => "HAS_RULE"

/-- The text that names a node among the nodes of all kinds. -/
def compositeKey (kind : NodeKind) (key : String) : String :=
  kind.text ++ ":" ++ key

/-- The text of a node number. -/
def nodeHandle (id : Nat) : String := "n" ++ id.repr

/-- The text of an edge number. -/
def edgeHandle (id : Nat) : String := "e" ++ id.repr

/-- What lookups and creations tell of a node. -/
structure NodeRef where
  id : Nat
  kind : NodeKind
  key : String
deriving DecidableEq, Inhabited

/-- The name of a node in messages. -/
def NodeRef.composite (n : NodeRef) : String :=
  compositeKey n.kind n.key

/-- Named texts attached to a node or an edge. -/
abbrev Properties := Table String String

/-- A node with its properties. The key is not repeated among them. -/
structure NodeRecord where
  id : Nat
  kind : NodeKind
  key : String
  properties : Properties
deriving DecidableEq, Inhabited

/-- An edge with its properties. -/
structure EdgeRecord where
  id : Nat
  kind : EdgeKind
  source : Nat
  target : Nat
  properties : Properties
deriving DecidableEq, Inhabited

namespace NodeRecord

/-- A node without properties. -/
def new (id : Nat) (kind : NodeKind) (key : String) : NodeRecord :=
  ⟨id, kind, key, .empty⟩

/-- A record reduced to what lookups tell. -/
def toRef (n : NodeRecord) : NodeRef :=
  ⟨n.id, n.kind, n.key⟩

/-- The name of a node among the nodes of all kinds. -/
def composite (n : NodeRecord) : String :=
  compositeKey n.kind n.key

/-- A node with one property set. -/
def setProperty (n : NodeRecord) (name value : String) : NodeRecord :=
  { n with properties := n.properties.insert name value }

end NodeRecord

namespace EdgeRecord

/-- An edge without properties. -/
def new (id : Nat) (kind : EdgeKind) (source target : Nat) : EdgeRecord :=
  ⟨id, kind, source, target, .empty⟩

/-- An edge with one property set. -/
def setProperty (e : EdgeRecord) (name value : String) : EdgeRecord :=
  { e with properties := e.properties.insert name value }

end EdgeRecord

/-- The property of a rule that holds its formula. -/
def formulaProperty : String := "formula"

/-- The property of an edge into a path that repeats the text of the path. -/
def pathProperty : String := "path"

end RulePaths
