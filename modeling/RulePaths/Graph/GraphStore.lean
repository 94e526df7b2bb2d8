import RulePaths.Graph.Snapshot
import RulePaths.Graph.StoreError

/-!
# Stores and transactions

A store keeps a committed graph. It is read directly, and written by transactions: a
transaction is started, asked to do things one call at a time, and then either committed,
rolled back or dropped. What it has done so far is seen by its own calls only.

`GraphStore σ τ` says that `σ` is a type of stores whose open transactions are of type `τ`.
Every call may fail, and it may leave the store in another state even if it only reads: that
lets a store count its calls. Dropping a transaction is no call at all, since the store that
is left holds nothing of it.
-/

namespace RulePaths

/-- A call on a state: it fails or has an answer, and leaves a state in either case. -/
abbrev StoreM (σ α : Type) := ExceptT StoreError (StateM σ) α

namespace StoreM

variable {σ ρ α : Type}

/-- A call that only looks at the state. -/
def read (f : σ → Except StoreError α) : StoreM σ α := fun s => (f s, s)

/-- The outcome of a call as the answer of a call that does not fail. -/
def observe (m : StoreM σ α) : StoreM σ (Except StoreError α) := fun s =>
  let (r, s) := m s
  (.ok r, s)

/-- A call on a part of the state. -/
def focus (part : σ → ρ) (replace : ρ → σ → σ) (m : StoreM ρ α) : StoreM σ α := fun s =>
  let (r, p) := m (part s)
  (r, replace p s)

end StoreM

/-- What a transaction can be asked to do. -/
inductive TxnCall where
  /-- Find a node, among those committed and those that the transaction created. -/
  | find (kind : NodeKind) (key : String)
  /-- Create a node. -/
  | create (kind : NodeKind) (key : String)
  /-- Set a property of a node that the transaction created. -/
  | setNode (node : NodeRef) (name value : String)
  /-- Create an edge between two nodes. -/
  | link (kind : EdgeKind) (source target : NodeRef)
  /-- Set a property of an edge that the transaction created. -/
  | setEdge (edge : Nat) (name value : String)
deriving DecidableEq, Inhabited

/-- What a transaction answers to a call. -/
abbrev TxnCall.Answer : TxnCall → Type
  | .find .. => Option NodeRef
  | .create .. => NodeRef
  | .setNode .. => Unit
  | .link .. => Nat
  | .setEdge .. => Unit

/-- Stores of type `σ` with open transactions of type `τ`. -/
class GraphStore (σ : Type) (τ : outParam Type) where
  /-- The committed node of a kind with a key. -/
  lookup (kind : NodeKind) (key : String) : StoreM σ (Option NodeRecord)
  /-- All that is committed. -/
  snapshot : StoreM σ Snapshot
  /-- Start a transaction. -/
  start : StoreM σ τ
  /-- One call of an open transaction. -/
  perform (c : TxnCall) : StoreM (σ × τ) c.Answer
  /-- End a transaction and commit all that it did. -/
  commit (t : τ) : StoreM σ Unit
  /-- End a transaction and forget all that it did. -/
  rollback (t : τ) : StoreM σ Unit

namespace GraphStore

variable {σ τ : Type} [GraphStore σ τ]

/-- How many nodes and edges of each kind are committed. -/
def counts : StoreM σ Counts := do
  return (← GraphStore.snapshot (σ := σ)).counts

/-- A call on the committed graph while a transaction is open. -/
def besides {α : Type} (m : StoreM σ α) : StoreM (σ × τ) α :=
  StoreM.focus Prod.fst (fun s w => (s, w.2)) m

end GraphStore

end RulePaths
