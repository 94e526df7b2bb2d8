import RulePaths.Graph.GraphStore

/-!
# Stores that hide a node

A veiled store shows what a writer sees who loses a race: one node, put there by somebody
else, is not found. It is not found by lookups at all, nor by a transaction until the
transaction has tried to create it and was told that it exists. A veil that never lifts hides
it even then. Creation itself and snapshots are not affected.
-/

namespace RulePaths

/-- A node to hide, by kind and key, and whether a failed creation reveals it. -/
structure Veil where
  kind : NodeKind
  key : String
  lifts : Bool
deriving DecidableEq, Inhabited

/-- Whether a veil is over a node. -/
def Veil.covers (v : Veil) (kind : NodeKind) (key : String) : Bool :=
  v.kind == kind && v.key == key

/-- A store with at most one node hidden. -/
structure Veiled (σ : Type) where
  inner : σ
  veil : Option Veil
deriving DecidableEq

/-- A transaction of a veiled store, and whether the node was revealed to it. -/
structure VeiledTxn (τ : Type) where
  inner : τ
  revealed : Bool
deriving DecidableEq

namespace Veiled

variable {σ τ α : Type}

/-- Whether a node is hidden from lookups. -/
def hides (s : Veiled σ) (kind : NodeKind) (key : String) : Bool :=
  s.veil.any fun v => v.covers kind key

/-- A call passed on to the inner store. -/
def pass (m : StoreM σ α) : StoreM (Veiled σ) α :=
  StoreM.focus inner (fun inner s => { s with inner }) m

/-- A call of a transaction passed on to the inner one. -/
def passWith (m : StoreM (σ × τ) α) : StoreM (Veiled σ × VeiledTxn τ) α :=
  StoreM.focus (fun w => (w.1.inner, w.2.inner))
    (fun p w => ({ w.1 with inner := p.1 }, { w.2 with inner := p.2 })) m

/-- Whether the outcome of a creation reveals the node. -/
def reveals (s : Veiled σ) (kind : NodeKind) (key : String) : Except StoreError α → Bool
  | .error (.alreadyExists ..) => s.veil.any fun v => v.covers kind key && v.lifts
  | _ => false

/-- One call of a transaction. -/
def performVeiled [GraphStore σ τ] :
    (c : TxnCall) → StoreM (Veiled σ × VeiledTxn τ) c.Answer
  | .find kind key => fun w =>
    if w.1.hides kind key && !w.2.revealed then (.ok none, w)
    else passWith (GraphStore.perform (.find kind key)) w
  | .create kind key => fun w =>
    let (r, s, t) := passWith (GraphStore.perform (.create kind key)) w
    (r, s, { t with revealed := t.revealed || s.reveals kind key r })
  | .setNode node name value => passWith (GraphStore.perform (.setNode node name value))
  | .link kind source target => passWith (GraphStore.perform (.link kind source target))
  | .setEdge edge name value => passWith (GraphStore.perform (.setEdge edge name value))

instance [GraphStore σ τ] : GraphStore (Veiled σ) (VeiledTxn τ) where
  lookup kind key := fun s =>
    if s.hides kind key then (.ok none, s) else pass (GraphStore.lookup kind key) s
  snapshot := pass GraphStore.snapshot
  start := do return ⟨← pass GraphStore.start, false⟩
  perform := performVeiled
  commit t := pass (GraphStore.commit t.inner)
  rollback t := pass (GraphStore.rollback t.inner)

end Veiled

end RulePaths
