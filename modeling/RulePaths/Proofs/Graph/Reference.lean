import RulePaths.Graph.GraphStore
import RulePaths.Proofs.Graph.Growth

/-!
# Transactions on the graph itself

What the calls of a transaction are meant to do, said on the graph that the transaction has made
so far. What is numbered below the counts of the graph it started from is read-only.

A call is honest if every node reference that it passes is the reference of a node of the graph.
Other references may be forged or out of date. What stores do with them depends on how they find
the node whose property is set: by the number of the reference, or by its kind and its key. Where
an edge ends, all that counts is the number.

## Main definitions

- `Snapshot.perform` — the answer to a call and the graph after it
- `Snapshot.Has` — the graph has the node that a reference speaks of
- `TxnCall.Honest` — a call speaks of nodes that there are
- `Snapshot.performBy` — the answer to a call whose references may be of any kind
- `Snapshot.Step` — the ways in which a call can change the graph

## Main results

- `Snapshot.perform_setNode_new`, `Snapshot.perform_setEdge_new` — properties of new records
- `Snapshot.performBy_of_honest` — an honest call does the same however nodes are found
- `Snapshot.step_of_performBy` — what a call can do
-/

namespace RulePaths

namespace Snapshot

/-- What a call of a transaction that started from `base` does to the graph. -/
def perform (base g : Snapshot) : (c : TxnCall) → Except StoreError (c.Answer × Snapshot)
  | .find kind key => .ok ((g.node? kind key).map NodeRecord.toRef, g)
  | .create kind key =>
    if (g.node? kind key).isSome then .error (.alreadyExists kind key)
    else .ok (⟨g.nodes.length, kind, key⟩, g.addNode kind key .empty)
  | .setNode node name value =>
    if node.id < base.nodes.length then .error (.immutable node.composite)
    else .ok ((), g.setNode node.id name value)
  | .link kind source target => .ok (g.edges.length, g.addEdge kind source.id target.id .empty)
  | .setEdge edge name value =>
    if edge < base.edges.length then .error (.immutable (edgeHandle edge))
    else if edge < g.edges.length then .ok ((), g.setEdge edge name value)
    else .error (.notFound (edgeHandle edge))

/-- The graph has the node that a reference speaks of. -/
def Has (g : Snapshot) (node : NodeRef) : Prop :=
  g.nodes[node.id]?.map NodeRecord.toRef = some node

end Snapshot

/-- All nodes that a call speaks of are there. -/
def TxnCall.Honest (g : Snapshot) : TxnCall → Prop
  | .find .. | .create .. | .setEdge .. => True
  | .setNode node .. => g.Has node
  | .link _ source target => g.Has source ∧ g.Has target

namespace Snapshot

variable {base g h h' : Snapshot} {kind : NodeKind} {key : String} {node : NodeRef}

/-! ### References -/

theorem Has.exists_getElem? (h : g.Has node) :
    ∃ n, g.nodes[node.id]? = some n ∧ n.toRef = node := by
  simpa [Has] using h

theorem Has.lt (h : g.Has node) : node.id < g.nodes.length := by
  obtain ⟨n, hn, _⟩ := h.exists_getElem?
  exact (List.getElem?_eq_some_iff.1 hn).1

theorem Has.addNode (h : g.Has node) (kind : NodeKind) (key : String) (ps : Properties) :
    (g.addNode kind key ps).Has node := by
  rw [Has, nodes_addNode, List.getElem?_append_left h.lt]
  exact h

theorem Has.addEdge (h : g.Has node) (kind : EdgeKind) (source target : Nat) (ps : Properties) :
    (g.addEdge kind source target ps).Has node :=
  h

theorem has_new (g : Snapshot) (kind : NodeKind) (key : String) (ps : Properties) :
    (g.addNode kind key ps).Has ⟨g.nodes.length, kind, key⟩ := by
  simp [Has, NodeRecord.toRef]

theorem Sound.has_of_node? (hg : g.Sound) {n : NodeRecord} (hn : g.node? kind key = some n) :
    g.Has n.toRef := by
  show g.nodes[n.id]?.map NodeRecord.toRef = some n.toRef
  rw [hg.getElem?_of_mem (mem_of_node? hn)]
  rfl

/-! ### Properties of new records -/

/-- A node that the transaction just created gets its first property. -/
theorem perform_setNode_new (hbase : Below base g) (kind : NodeKind) (key name value : String) :
    Snapshot.perform base (g.addNode kind key .empty)
        (.setNode ⟨g.nodes.length, kind, key⟩ name value) =
      .ok ((), g.addNode kind key (Table.empty.insert name value)) := by
  have := hbase.length_nodes_le
  simp only [Snapshot.perform, setNode_addNode]
  rw [if_neg (by omega)]

/-- An edge that the transaction just created gets its first property. -/
theorem perform_setEdge_new (hbase : Below base g) (kind : EdgeKind) (source target : Nat)
    (name value : String) :
    Snapshot.perform base (g.addEdge kind source target .empty)
        (.setEdge g.edges.length name value) =
      .ok ((), g.addEdge kind source target (Table.empty.insert name value)) := by
  have := hbase.length_edges_le
  simp only [Snapshot.perform, setEdge_addEdge]
  rw [if_neg (by omega), if_pos (by simp)]

/-! ### References of any kind -/

/-- How the number of the node is found that a reference speaks of. -/
abbrev Resolver := Snapshot → NodeRef → Option Nat

/-- The number of the reference, if there are that many nodes. -/
def byNumber : Resolver := fun g node =>
  if node.id < g.nodes.length then some node.id else none

/-- The number of the node with the kind and the key of the reference. -/
def byName : Resolver := fun g node =>
  (g.node? node.kind node.key).map NodeRecord.id

/-- What a call of a transaction that started from `base` does to the graph if nodes are found by
`resolve`. -/
def performBy (resolve : Resolver) (base g : Snapshot) :
    (c : TxnCall) → Except StoreError (c.Answer × Snapshot)
  | .find kind key => Snapshot.perform base g (.find kind key)
  | .create kind key => Snapshot.perform base g (.create kind key)
  | .setNode node name value =>
    match resolve g node with
    | none => .error (.notFound node.composite)
    | some id =>
      if id < base.nodes.length then .error (.immutable node.composite)
      else .ok ((), g.setNode id name value)
  | .link kind source target =>
    if g.nodes.length ≤ source.id then .error (.notFound source.composite)
    else if g.nodes.length ≤ target.id then .error (.notFound target.composite)
    else Snapshot.perform base g (.link kind source target)
  | .setEdge edge name value => Snapshot.perform base g (.setEdge edge name value)

/-- A way of finding nodes that finds every node that there is by its own reference. -/
def Resolver.Finds (resolve : Resolver) : Prop :=
  ∀ {g : Snapshot} {node : NodeRef}, g.Sound → g.Has node → resolve g node = some node.id

theorem finds_byNumber : byNumber.Finds :=
  fun _ hn => if_pos hn.lt

theorem finds_byName : byName.Finds := by
  intro g node hg hn
  obtain ⟨n, hn, rfl⟩ := hn.exists_getElem?
  have hfound : g.node? n.kind n.key = some n :=
    hg.node?_eq_some_iff.2 ⟨List.mem_of_getElem? hn, rfl⟩
  show (g.node? n.kind n.key).map NodeRecord.id = some n.id
  rw [hfound]
  rfl

/-- An honest call does the same however nodes are found. -/
theorem performBy_of_honest {resolve : Resolver} (hresolve : resolve.Finds) (hg : g.Sound)
    (base : Snapshot) {c : TxnCall} (hc : c.Honest g) :
    performBy resolve base g c = Snapshot.perform base g c := by
  cases c with
  | find kind key => rfl
  | create kind key => rfl
  | setNode node name value => simp only [performBy, Snapshot.perform, hresolve hg hc]
  | link kind source target =>
    rw [performBy, if_neg (Nat.not_le.2 hc.1.lt), if_neg (Nat.not_le.2 hc.2.lt)]
  | setEdge edge name value => rfl

/-! ### What a call can do -/

/-- The ways in which a call of a transaction that started from `base` can succeed: its answer and
the graph after it. -/
inductive Step (base g : Snapshot) : (c : TxnCall) → c.Answer → Snapshot → Prop where
  | find (kind : NodeKind) (key : String) :
    Step base g (.find kind key) ((g.node? kind key).map NodeRecord.toRef) g
  | create {kind : NodeKind} {key : String} (hnew : g.node? kind key = none) :
    Step base g (.create kind key) ⟨g.nodes.length, kind, key⟩ (g.addNode kind key .empty)
  | setNode (node : NodeRef) {id : Nat} (hid : base.nodes.length ≤ id) (name value : String) :
    Step base g (.setNode node name value) () (g.setNode id name value)
  | link (kind : EdgeKind) {source target : NodeRef} (hsource : source.id < g.nodes.length)
    (htarget : target.id < g.nodes.length) :
    Step base g (.link kind source target) g.edges.length
      (g.addEdge kind source.id target.id .empty)
  | setEdge {edge : Nat} (hedge : base.edges.length ≤ edge) (hlt : edge < g.edges.length)
    (name value : String) :
    Step base g (.setEdge edge name value) () (g.setEdge edge name value)

theorem step_of_performBy {resolve : Resolver} {c : TxnCall} {a : c.Answer}
    (hrun : performBy resolve base g c = .ok (a, h)) : Step base g c a h := by
  cases c with
  | find kind key =>
    cases hrun
    exact .find kind key
  | create kind key =>
    simp only [performBy, Snapshot.perform] at hrun
    split at hrun
    · cases hrun
    · next hnew =>
      cases hrun
      exact .create (by simpa using hnew)
  | setNode node name value =>
    simp only [performBy] at hrun
    split at hrun
    · cases hrun
    · split at hrun
      · cases hrun
      · next hid =>
        cases hrun
        exact .setNode node (Nat.not_lt.1 hid) name value
  | link kind source target =>
    simp only [performBy] at hrun
    split at hrun
    · cases hrun
    · next hsource =>
      split at hrun
      · cases hrun
      · next htarget =>
        cases hrun
        exact .link kind (Nat.not_le.1 hsource) (Nat.not_le.1 htarget)
  | setEdge edge name value =>
    simp only [performBy, Snapshot.perform] at hrun
    split at hrun
    · cases hrun
    · next hedge =>
      split at hrun
      · next hlt =>
        cases hrun
        exact .setEdge (Nat.not_lt.1 hedge) hlt name value
      · cases hrun

namespace Step

variable {c : TxnCall} {a : c.Answer}

theorem sound (h : Step base g c a h') (hg : g.Sound) : h'.Sound := by
  cases h with
  | find => exact hg
  | create hnew => exact hg.addNode hnew .empty
  | setNode _ _ name value => exact hg.setNode _ name value
  | link kind hsource htarget => exact hg.addEdge kind hsource htarget .empty
  | setEdge _ _ name value => exact hg.setEdge _ name value

/-- Nothing that was there when the transaction started is changed. -/
theorem extends_base (h : Step base g c a h') (hbase : Extends base g) : Extends base h' := by
  cases h with
  | find => exact hbase
  | create => exact ⟨hbase.nodes.trans (List.prefix_append _ _), hbase.edges⟩
  | setNode _ hid => exact ⟨prefix_modify hbase.nodes hid _, hbase.edges⟩
  | link => exact ⟨hbase.nodes, hbase.edges.trans (List.prefix_append _ _)⟩
  | setEdge hedge => exact ⟨hbase.nodes, prefix_modify hbase.edges hedge _⟩

/-- No node gets another number, kind or key. -/
theorem has (h : Step base g c a h') (hn : g.Has node) : h'.Has node := by
  cases h with
  | find => exact hn
  | create => exact hn.addNode _ _ _
  | setNode =>
    rw [Has, ← List.getElem?_map] at hn ⊢
    rwa [Snapshot.setNode, map_modify_eq (f := NodeRecord.toRef)
      (m := fun n => n.setProperty _ _) fun _ => rfl]
  | link => exact hn.addEdge _ _ _ _
  | setEdge => exact hn

end Step

end Snapshot

end RulePaths
