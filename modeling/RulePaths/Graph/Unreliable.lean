import RulePaths.Graph.GraphStore

/-!
# Stores that fail by plan

An unreliable store passes every call on to the store it contains, unless a fault of its plan
strikes: then the call fails and is not passed on. A fault waits for calls of one sort, lets
a number of them pass and strikes the next one, once. A transaction whose commit or rollback
is struck is forgotten.
-/

namespace RulePaths

/-- The sorts of calls that a store serves. -/
inductive CallSort where
  | start
  | lookup
  | snapshot
  | find
  | create
  | setNode
  | link
  | setEdge
  | commit
  | rollback
deriving DecidableEq, Inhabited

/-- The name of a sort of calls in the message of a fault. -/
def CallSort.text : CallSort → String
  | .start => "begin"
  | .lookup => "store_find"
  | .snapshot => "snapshot"
  | .find => "txn_find"
  | .create => "create_node"
  | .setNode => "set_node_property"
  | .link => "create_edge"
  | .setEdge => "set_edge_property"
  | .commit => "commit"
  | .rollback => "rollback"

/-- The kind of record that a call is about. -/
inductive RecordKind where
  | node (kind : NodeKind)
  | edge (kind : EdgeKind)
deriving DecidableEq, Inhabited

/-- The sort of a call of a transaction. -/
def TxnCall.sort : TxnCall → CallSort
  | .find .. => .find
  | .create .. => .create
  | .setNode .. => .setNode
  | .link .. => .link
  | .setEdge .. => .setEdge

/-- The kind of record that a call of a transaction is about, if the call tells. -/
def TxnCall.recordKind? : TxnCall → Option RecordKind
  | .find kind _ => some (.node kind)
  | .create kind _ => some (.node kind)
  | .setNode node _ _ => some (.node node.kind)
  | .link kind _ _ => some (.edge kind)
  | .setEdge .. => none

/-- A fault that strikes a call of one sort, if `kind` is given only one about this kind of
record, after `skip` of them were let pass. -/
structure Fault where
  call : CallSort
  kind : Option RecordKind
  skip : Nat
deriving DecidableEq, Inhabited

namespace Fault

/-- Whether a fault waits for calls of a sort about a kind of record. -/
def waitsFor (f : Fault) (call : CallSort) (kind : Option RecordKind) : Bool :=
  f.call == call && (f.kind.isNone || f.kind == kind)

/-- Offers a call to the faults of a plan in turn. The first fault that waits for it and has
none left to skip strikes and is used up; those that waited before it have one less to skip.
The answer says whether some fault struck, and what is left of the plan. -/
def strike (call : CallSort) (kind : Option RecordKind) : List Fault → Bool × List Fault
  | [] => (false, [])
  | f :: fs =>
    if f.waitsFor call kind then
      match f.skip with
      | 0 => (true, fs)
      | skip + 1 =>
        let (struck, fs) := strike call kind fs
        (struck, { f with skip } :: fs)
    else
      let (struck, fs) := strike call kind fs
      (struck, f :: fs)

end Fault

/-- A store with a plan of faults. -/
structure Unreliable (σ : Type) where
  inner : σ
  plan : List Fault
deriving DecidableEq

namespace Unreliable

variable {σ τ α : Type}

/-- A call passed on to the inner store unless a fault strikes it. -/
def attempt (call : CallSort) (kind : Option RecordKind) (m : StoreM σ α) :
    StoreM (Unreliable σ) α := fun s =>
  let (struck, plan) := Fault.strike call kind s.plan
  if struck then (.error (.aborted ("injected fault in " ++ call.text)), { s with plan })
  else
    let (r, inner) := m s.inner
    (r, ⟨inner, plan⟩)

/-- A call of a transaction passed on unless a fault strikes it. -/
def attemptWith (call : CallSort) (kind : Option RecordKind) (m : StoreM (σ × τ) α) :
    StoreM (Unreliable σ × τ) α := fun (s, t) =>
  let (struck, plan) := Fault.strike call kind s.plan
  if struck then (.error (.aborted ("injected fault in " ++ call.text)), ({ s with plan }, t))
  else
    let (r, inner, t) := m (s.inner, t)
    (r, ⟨inner, plan⟩, t)

instance [GraphStore σ τ] : GraphStore (Unreliable σ) τ where
  lookup kind key := attempt .lookup (some (.node kind)) (GraphStore.lookup kind key)
  snapshot := attempt .snapshot none GraphStore.snapshot
  start := attempt .start none GraphStore.start
  perform c := attemptWith c.sort c.recordKind? (GraphStore.perform c)
  commit t := attempt .commit none (GraphStore.commit t)
  rollback t := attempt .rollback none (GraphStore.rollback t)

end Unreliable

end RulePaths
