import RulePaths.Proofs.Order.Tables
import RulePaths.Proofs.Store.Backend
import RulePaths.Proofs.Store.Reopening
import Mathlib.Data.List.Perm.Subperm

/-!
# The store in tables holds a graph

The tables of a durable store list the records of a graph as bytes, under their names and numbers.
As long as the graph is storable, all bytes are read back as the records they were written for.

## Main definitions

- `Tables.Represents` — the tables list the records of a graph
- `Tables.backend` — the store in tables as a backend

## Main results

- `Tables.Represents.toSnapshot` — the graph is read back
- `Tables.Represents.fits` — the tables can be written to a file
-/

namespace RulePaths

open Snapshot RecordBytes

/-! ### Names as texts -/

theorem compositeKey_inj {kind kind' : NodeKind} {key key' : String} :
    compositeKey kind key = compositeKey kind' key' ↔ kind = kind' ∧ key = key' := by
  refine ⟨fun h => ?_, fun ⟨hkind, hkey⟩ => by rw [hkind, hkey]⟩
  have hlist := congrArg String.toList h
  simp only [compositeKey, String.toList_append] at hlist
  -- the kinds are told apart by their first letters
  cases kind <;> cases kind' <;>
    simp [NodeKind.text] at hlist ⊢ <;> exact String.ext hlist

theorem composite_eq_iff {m n : NodeRecord} : m.composite = n.composite ↔ m.name = n.name := by
  rw [NodeRecord.composite, NodeRecord.composite, compositeKey_inj, NodeRecord.name,
    NodeRecord.name, Prod.mk.injEq]

theorem utf8ByteSize_composite_le (n : NodeRecord) :
    n.composite.utf8ByteSize ≤ n.key.utf8ByteSize + 10 := by
  have hkind : n.kind.text.utf8ByteSize ≤ 9 := by cases n.kind <;> decide
  have hcolon : ":".utf8ByteSize = 1 := by decide
  simp only [NodeRecord.composite, compositeKey, String.utf8ByteSize_append]
  omega

theorem Snapshot.Sound.nodup_composite {g : Snapshot} (hg : g.Sound) :
    (g.nodes.map NodeRecord.composite).Nodup := by
  have hunique := hg.unique
  rw [List.Nodup, List.pairwise_map] at hunique ⊢
  exact hunique.imp fun hne heq => hne (composite_eq_iff.1 heq)

namespace Tables

/-- The tables list the records of a graph. -/
structure Represents (t : Tables) (g : Snapshot) : Prop where
  sound : g.Sound
  storable : g.Storable
  nodes : t.nodes.Lists (g.nodes.map fun n => (n.composite, encodeNode n))
  nodeKeys : t.nodeKeys.Lists (g.nodes.map fun n => (n.id, n.composite))
  edges : t.edges.Lists (g.edges.map fun e => (e.id, encodeEdge e))
  nextNode : t.counter nextNode = g.nodes.length
  nextEdge : t.counter nextEdge = g.edges.length
  counters : ∀ e ∈ t.counters.entries, e.1 = Tables.nextNode ∨ e.1 = Tables.nextEdge

variable {t : Tables} {g : Snapshot}

theorem readNode_encodeNode (hg : g.Sound) (hs : g.Storable) {n : NodeRecord} (hn : n ∈ g.nodes) :
    readNode (encodeNode n) = .ok n := by
  have hid := Nat.lt_trans (hg.id_lt hn) hs.nodes
  have := decodeNode?_encodeNode hid (hs.node n hn) []
  rw [List.append_nil] at this
  rw [readNode, this]

theorem readEdge_encodeEdge (hg : g.Sound) (hs : g.Storable) {e : EdgeRecord} (he : e ∈ g.edges) :
    readEdge (encodeEdge e) = .ok e := by
  have hid := Nat.lt_trans (hg.edge_id_lt he) hs.edges
  obtain ⟨hsource, htarget⟩ := hg.ends e he
  have := decodeEdge?_encodeEdge hid (Nat.lt_trans hsource hs.nodes) (Nat.lt_trans htarget hs.nodes)
    (hs.edge e he) []
  rw [List.append_nil] at this
  rw [readEdge, this]

theorem represents_empty : Tables.empty.Represents Snapshot.empty where
  sound := sound_empty
  storable := ⟨by decide, by decide, nofun, nofun⟩
  nodes := by simp [Table.Lists, Tables.empty, Snapshot.empty, Table.empty]
  nodeKeys := by simp [Table.Lists, Tables.empty, Snapshot.empty, Table.empty]
  edges := by simp [Table.Lists, Tables.empty, Snapshot.empty, Table.empty]
  nextNode := rfl
  nextEdge := rfl
  counters := nofun

namespace Represents

theorem loadNode (h : t.Represents g) (kind : NodeKind) (key : String) :
    t.loadNode (compositeKey kind key) = .ok (g.node? kind key) := by
  cases hfound : g.node? kind key with
  | some n =>
    have hn := mem_of_node? hfound
    have hname := name_of_node? hfound
    simp only [NodeRecord.name, Prod.mk.injEq] at hname
    have hcomposite : n.composite = compositeKey kind key := by
      rw [NodeRecord.composite, hname.1, hname.2]
    have hget : t.nodes.get? (compositeKey kind key) = some (encodeNode n) :=
      h.nodes.get?_eq_some_iff.2 (hcomposite ▸ List.mem_map_of_mem hn)
    rw [Tables.loadNode, hget]
    show (readNode (encodeNode n)).map some = _
    rw [readNode_encodeNode h.sound h.storable hn]
    rfl
  | none =>
    have hget : t.nodes.get? (compositeKey kind key) = none := by
      apply h.nodes.get?_eq_none
      intro hmem
      simp only [List.map_map, List.mem_map, Function.comp] at hmem
      obtain ⟨n, hn, hcomposite⟩ := hmem
      obtain ⟨rfl, rfl⟩ := compositeKey_inj.1 hcomposite
      exact node?_eq_none_iff.1 hfound (List.mem_map_of_mem hn)
    rw [Tables.loadNode, hget]

theorem loadEdge (h : t.Represents g) (i : Nat) : t.loadEdge i = .ok (g.edgeById? i) := by
  rw [h.sound.edgeById?]
  cases hfound : g.edges[i]? with
  | some e =>
    have he := List.mem_of_getElem? hfound
    have hget : t.edges.get? i = some (encodeEdge e) :=
      h.edges.get?_eq_some_iff.2 (h.sound.getElem?_edge_id hfound ▸ List.mem_map_of_mem he)
    rw [Tables.loadEdge, hget]
    show (readEdge (encodeEdge e)).map some = _
    rw [readEdge_encodeEdge h.sound h.storable he]
    rfl
  | none =>
    have hget : t.edges.get? i = none := by
      apply h.edges.get?_eq_none
      intro hmem
      simp only [List.map_map, List.mem_map, Function.comp] at hmem
      obtain ⟨e, he, rfl⟩ := hmem
      cases hfound.symm.trans (h.sound.getElem?_edge_of_mem he)
    rw [Tables.loadEdge, hget]

/-! ### The graph is read back -/

theorem edges_entries (h : t.Represents g) :
    t.edges.entries = g.edges.map fun e => (e.id, encodeEdge e) := by
  apply h.edges.entries_eq
  have hids : (g.edges.map EdgeRecord.id).Pairwise (· < ·) := by
    rw [h.sound.edges]
    exact List.pairwise_lt_range
  rw [List.pairwise_map] at hids ⊢
  exact hids.imp fun hlt => Nat.compare_eq_lt.2 hlt

theorem nodeKeys_entries (h : t.Represents g) :
    t.nodeKeys.entries = g.nodes.map fun n => (n.id, n.composite) := by
  apply h.nodeKeys.entries_eq
  have hids : (g.nodes.map NodeRecord.id).Pairwise (· < ·) := by
    rw [h.sound.nodes]
    exact List.pairwise_lt_range
  rw [List.pairwise_map] at hids ⊢
  exact hids.imp fun hlt => Nat.compare_eq_lt.2 hlt

theorem nodes_perm (h : t.Represents g) :
    t.nodes.entries.Perm (g.nodes.map fun n => (n.composite, encodeNode n)) := by
  apply h.nodes.perm
  rw [List.map_map]
  exact h.sound.nodup_composite

end Represents

/-- Values that are read one after the other. -/
theorem mapM_eq_ok {α β : Type} {f : α → Except StoreError β} {as : List α} {bs : List β}
    (h : List.Forall₂ (fun a b => f a = .ok b) as bs) : as.mapM f = .ok bs := by
  induction h with
  | nil => rfl
  | cons hab _ ih =>
    rw [List.mapM_cons, hab]
    simp only [bind, Except.bind, ih]
    rfl

namespace Represents

theorem toSnapshot (h : t.Represents g) : t.toSnapshot = .ok g := by
  obtain ⟨ns, hns, hperm⟩ : ∃ ns : List NodeRecord,
      t.nodes.entries = ns.map (fun n => (n.composite, encodeNode n)) ∧ ns.Perm g.nodes := by
    have hcomp := congrFun (congrFun (List.eq_map_comp_perm fun n : NodeRecord =>
      (n.composite, encodeNode n)) t.nodes.entries) g.nodes
    exact hcomp.mpr h.nodes_perm
  have hnodes : t.nodes.entries.mapM (fun e => readNode e.2) = .ok ns := by
    apply mapM_eq_ok
    rw [hns, List.forall₂_map_left_iff, List.forall₂_same]
    exact fun n hn => readNode_encodeNode h.sound h.storable (hperm.mem_iff.1 hn)
  have hedges : t.edges.entries.mapM (fun e => readEdge e.2) = .ok g.edges := by
    apply mapM_eq_ok
    rw [h.edges_entries, List.forall₂_map_left_iff, List.forall₂_same]
    exact fun e he => readEdge_encodeEdge h.sound h.storable he
  -- the names come in another order, but there is only one order by number
  have hsorted : (ns.mergeSort fun a b => a.id ≤ b.id) = g.nodes := by
    have hns : (ns.mergeSort fun a b => a.id ≤ b.id).Pairwise fun a b => a.id ≤ b.id := by
      have hpairwise : (ns.mergeSort fun a b => a.id ≤ b.id).Pairwise
          fun a b => decide (a.id ≤ b.id) = true := by
        apply List.pairwise_mergeSort
        · intro a b c hab hbc
          simp only [decide_eq_true_eq] at *
          exact Nat.le_trans hab hbc
        · intro a b
          simpa using Nat.le_total a.id b.id
      simpa using hpairwise
    have hg : g.nodes.Pairwise fun a b => a.id ≤ b.id := by
      have hids := List.pairwise_lt_range (n := g.nodes.length)
      rw [← h.sound.nodes, List.pairwise_map] at hids
      exact hids.imp Nat.le_of_lt
    refine ((List.mergeSort_perm ns _).trans hperm).eq_of_pairwise ?_ hns hg
    intro a b ha hb hab hba
    have ha := h.sound.getElem?_of_mem (hperm.mem_iff.1 (List.mem_mergeSort.1 ha))
    rw [Nat.le_antisymm hab hba, h.sound.getElem?_of_mem hb] at ha
    exact (Option.some.inj ha).symm
  rw [Tables.toSnapshot, hnodes, hedges]
  simp only [bind, Except.bind, hsorted]
  rfl

/-! ### Calls of a transaction -/

theorem counter_insert_self (t : Tables) (name : String) (n : Nat) :
    { t with counters := t.counters.insert name n }.counter name = n := by
  rw [Tables.counter, Table.get?_insert_self]
  rfl

theorem counter_insert_of_ne (t : Tables) {name name' : String} (n : Nat) (h : name' ≠ name) :
    { t with counters := t.counters.insert name n }.counter name' = t.counter name' := by
  rw [Tables.counter, Table.get?_insert_of_ne _ _ h, Tables.counter]

theorem next_of_lt {n : Nat} (h : n + 1 < 2 ^ 64) : Tables.next n = n + 1 := by
  rw [Tables.next, Nat.one_shiftLeft, Nat.mod_eq_of_lt h]

theorem mem_counters_insert (h : t.Represents g) {name : String} {n : Nat}
    (hname : name = Tables.nextNode ∨ name = Tables.nextEdge) :
    ∀ e ∈ (t.counters.insert name n).entries, e.1 = Tables.nextNode ∨ e.1 = Tables.nextEdge := by
  intro e he
  rcases Table.mem_entries_insert.1 he with rfl | ⟨he, _⟩
  · exact hname
  · exact h.counters e he

theorem storeNode_new (h : t.Represents g) {kind : NodeKind} {key : String}
    (hnew : g.node? kind key = none) (hs : (g.addNode kind key .empty).Storable) :
    (({ t with
      counters := t.counters.insert Tables.nextNode (next g.nodes.length)
      nodeKeys := t.nodeKeys.insert g.nodes.length (compositeKey kind key) } : Tables).storeNode
        (.new g.nodes.length kind key)).Represents (g.addNode kind key .empty) where
  sound := h.sound.addNode hnew .empty
  storable := hs
  nodes := by
    rw [nodes_addNode, List.map_append]
    apply h.nodes.insert_new
    simp only [List.map_map, List.mem_map, Function.comp]
    rintro ⟨n, hn, hcomposite⟩
    have hname : n.name = (kind, key) := composite_eq_iff.1 hcomposite
    exact node?_eq_none_iff.1 hnew (hname ▸ List.mem_map_of_mem hn)
  nodeKeys := by
    rw [nodes_addNode, List.map_append]
    apply h.nodeKeys.insert_new
    simp only [List.map_map, List.mem_map, Function.comp]
    rintro ⟨n, hn, hid⟩
    exact absurd (h.sound.id_lt hn) (by omega)
  edges := h.edges
  nextNode := by
    have hlt : g.nodes.length + 1 < 2 ^ 64 := by simpa using hs.nodes
    rw [next_of_lt hlt]
    exact (counter_insert_self t _ _).trans (by simp)
  nextEdge := (counter_insert_of_ne t _ (by decide)).trans h.nextEdge
  counters := h.mem_counters_insert (.inl rfl)

/-- A list in which one value is changed, looked at through a function. -/
theorem map_modify_eq_set {α β : Type} {l : List α} {i : Nat} {a : α} (h : l[i]? = some a)
    (m : α → α) (f : α → β) : (l.modify i m).map f = (l.map f).set i (f (m a)) := by
  obtain ⟨hlt, rfl⟩ := List.getElem?_eq_some_iff.1 h
  apply List.ext_getElem?
  intro j
  rw [List.getElem?_map, List.getElem?_modify, List.getElem?_set, List.getElem?_map]
  by_cases hij : i = j
  · subst hij
    simp [hlt]
  · simp [hij]

theorem storeNode_old (h : t.Represents g) {n : NodeRecord} (hn : g.nodes[n.id]? = some n)
    (name value : String) (hs : (g.setNode n.id name value).Storable) :
    (t.storeNode (n.setProperty name value)).Represents (g.setNode n.id name value) where
  sound := h.sound.setNode _ _ _
  storable := hs
  nodes := by
    rw [Snapshot.setNode, map_modify_eq_set hn]
    refine h.nodes.insert_old ?_ (u := encodeNode n) ?_ _
    · rw [List.map_map]
      exact h.sound.nodup_composite
    · rw [List.getElem?_map, hn]
      rfl
  nodeKeys := by
    rw [Snapshot.setNode, map_modify_eq (m := fun n => n.setProperty name value)
      (f := fun n : NodeRecord => (n.id, n.composite)) fun _ => rfl]
    exact h.nodeKeys
  edges := h.edges
  nextNode := by
    rw [Snapshot.setNode, List.length_modify]
    exact h.nextNode
  nextEdge := h.nextEdge
  counters := h.counters

theorem storeEdge_new (h : t.Represents g) (kind : EdgeKind) {source target : Nat}
    (hsource : source < g.nodes.length) (htarget : target < g.nodes.length)
    (hs : (g.addEdge kind source target .empty).Storable) :
    (({ t with
      counters := t.counters.insert Tables.nextEdge (next g.edges.length) } : Tables).storeEdge
        (.new g.edges.length kind source target)).Represents
      (g.addEdge kind source target .empty) where
  sound := h.sound.addEdge kind hsource htarget .empty
  storable := hs
  nodes := h.nodes
  nodeKeys := h.nodeKeys
  edges := by
    rw [edges_addEdge, List.map_append]
    apply h.edges.insert_new
    simp only [List.map_map, List.mem_map, Function.comp]
    rintro ⟨e, he, hid⟩
    exact absurd (h.sound.edge_id_lt he) (by simp [hid, EdgeRecord.new])
  nextNode := (counter_insert_of_ne t _ (by decide)).trans h.nextNode
  nextEdge := by
    have hlt : g.edges.length + 1 < 2 ^ 64 := by simpa using hs.edges
    rw [next_of_lt hlt]
    exact (counter_insert_self t _ _).trans (by simp)
  counters := h.mem_counters_insert (.inr rfl)

theorem storeEdge_old (h : t.Represents g) {e : EdgeRecord} (he : g.edges[e.id]? = some e)
    (name value : String) (hs : (g.setEdge e.id name value).Storable) :
    (t.storeEdge (e.setProperty name value)).Represents (g.setEdge e.id name value) where
  sound := h.sound.setEdge _ _ _
  storable := hs
  nodes := h.nodes
  nodeKeys := h.nodeKeys
  edges := by
    rw [Snapshot.setEdge, map_modify_eq_set he]
    refine h.edges.insert_old ?_ (u := encodeEdge e) ?_ _
    · rw [List.map_map]
      show (g.edges.map EdgeRecord.id).Nodup
      rw [h.sound.edges]
      exact List.nodup_range
    · rw [List.getElem?_map, he]
      rfl
  nextNode := h.nextNode
  nextEdge := by
    rw [Snapshot.setEdge, List.length_modify]
    exact h.nextEdge
  counters := h.counters

/-! ### The file -/

/-- What the tables of a storable graph hold fits into the file of the store. -/
theorem fits (h : t.Represents g) : TablesFile.Fits t := by
  have hcomposite : ∀ n ∈ g.nodes, n.composite.utf8ByteSize < 2 ^ 64 := by
    intro n hn
    have hsize := h.storable.node n hn
    have := utf8ByteSize_composite_le n
    rw [length_encodeNode] at hsize
    omega
  have hcounter : ∀ e ∈ t.counters.entries, e.2 < 2 ^ 64 := by
    intro e he
    have hget : t.counter e.1 = e.2 := by
      rw [Tables.counter, Table.get?_eq_some_iff.2 he]
      rfl
    rcases h.counters e he with hname | hname
    · rw [← hget, hname, h.nextNode]
      exact h.storable.nodes
    · rw [← hget, hname, h.nextEdge]
      exact h.storable.edges
  exact {
    nodes := by
      rw [h.nodes_perm.length_eq, List.length_map]
      exact h.storable.nodes
    node := fun e he => by
      obtain ⟨n, hn, rfl⟩ := List.mem_map.1 ((h.nodes e).1 he)
      exact ⟨hcomposite n hn, h.storable.node n hn⟩
    nodeKeys := by
      rw [h.nodeKeys_entries, List.length_map]
      exact h.storable.nodes
    nodeKey := fun e he => by
      obtain ⟨n, hn, rfl⟩ := List.mem_map.1 ((h.nodeKeys e).1 he)
      exact ⟨Nat.lt_trans (h.sound.id_lt hn) h.storable.nodes, hcomposite n hn⟩
    edges := by
      rw [h.edges_entries, List.length_map]
      exact h.storable.edges
    edge := fun x hx => by
      obtain ⟨e, he, rfl⟩ := List.mem_map.1 ((h.edges x).1 hx)
      exact ⟨Nat.lt_trans (h.sound.edge_id_lt he) h.storable.edges, h.storable.edge e he⟩
    counters := by
      have hsubset : t.counters.entries.map Prod.fst ⊆ [Tables.nextNode, Tables.nextEdge] := by
        intro name hname
        obtain ⟨e, he, rfl⟩ := List.mem_map.1 hname
        simpa using h.counters e he
      have := (List.subperm_of_subset t.counters.nodup_keys hsubset).length_le
      rw [List.length_map] at this
      exact Nat.lt_of_le_of_lt this (by decide)
    counter := fun e he => by
      refine ⟨?_, hcounter e he⟩
      rcases h.counters e he with hname | hname <;> rw [hname] <;> decide }

end Represents

/-- The tables of a transaction list the graph that it has made. -/
structure Stages (t : TablesTxn) (base g : Snapshot) : Prop where
  tables : t.tables.Represents g
  baseNode : t.baseNode = base.nodes.length
  baseEdge : t.baseEdge = base.edges.length

namespace Stages

variable {t : TablesTxn} {base g h : Snapshot}

theorem knowsNode (ht : Stages t base g) (id : Nat) :
    t.knowsNode id = decide (id < g.nodes.length) := by
  rw [TablesTxn.knowsNode, Bool.eq_iff_iff, decide_eq_true_eq]
  constructor
  · intro hknown
    obtain ⟨composite, hget⟩ := Option.isSome_iff_exists.1 hknown
    obtain ⟨n, hn, heq⟩ := List.mem_map.1 (ht.tables.nodeKeys.get?_eq_some_iff.1 hget)
    obtain ⟨rfl, _⟩ := Prod.mk.inj heq
    exact ht.tables.sound.id_lt hn
  · intro hlt
    obtain ⟨n, hn⟩ : ∃ n, g.nodes[id]? = some n := ⟨_, List.getElem?_eq_getElem hlt⟩
    have hget : t.tables.nodeKeys.get? id = some n.composite := by
      apply ht.tables.nodeKeys.get?_eq_some_iff.2
      rw [← ht.tables.sound.getElem?_id hn]
      exact List.mem_map_of_mem (List.mem_of_getElem? hn)
    rw [hget]
    rfl

theorem find? (ht : Stages t base g) (kind : NodeKind) (key : String) :
    t.find? kind key = .ok ((g.node? kind key).map NodeRecord.toRef) := by
  rw [TablesTxn.find?, ht.tables.loadNode]
  rfl

theorem create (ht : Stages t base g) {kind : NodeKind} {key : String}
    (hnew : g.node? kind key = none) (hs : (g.addNode kind key .empty).Storable) :
    ∃ t', t.create kind key = .ok (⟨g.nodes.length, kind, key⟩, t') ∧
      Stages t' base (g.addNode kind key .empty) := by
  have hstored := ht.tables.storeNode_new hnew hs
  rw [TablesTxn.create, ht.tables.loadNode, hnew]
  simp only [ht.tables.nextNode]
  exact ⟨_, rfl, hstored, ht.baseNode, ht.baseEdge⟩

theorem setNode_none (ht : Stages t base g) {node : NodeRef}
    (hn : g.node? node.kind node.key = none) (name value : String) :
    t.setNode node name value = .error (.notFound node.composite) := by
  rw [TablesTxn.setNode, NodeRef.composite, ht.tables.loadNode, hn]
  rfl

theorem setNode_some (ht : Stages t base g) {node : NodeRef} {n : NodeRecord}
    (hn : g.node? node.kind node.key = some n) (name value : String) :
    (n.id < base.nodes.length → t.setNode node name value = .error (.immutable node.composite)) ∧
      (base.nodes.length ≤ n.id → (g.setNode n.id name value).Storable →
        ∃ t', t.setNode node name value = .ok t' ∧
          Stages t' base (g.setNode n.id name value)) := by
  have hload : t.tables.loadNode node.composite = .ok (some n) := by
    rw [NodeRef.composite, ht.tables.loadNode, hn]
  rw [TablesTxn.setNode, hload, ← ht.baseNode]
  constructor
  · intro hlt
    simp only [bind, Except.bind, if_pos hlt]
    rfl
  · intro hle hs
    have hplace := ht.tables.sound.getElem?_of_mem (mem_of_node? hn)
    simp only [bind, Except.bind, if_neg (Nat.not_lt.2 hle)]
    exact ⟨_, rfl, ht.tables.storeNode_old hplace name value hs, ht.baseNode, ht.baseEdge⟩

theorem link (ht : Stages t base g) (kind : EdgeKind) {source target : NodeRef}
    (hsource : source.id < g.nodes.length) (htarget : target.id < g.nodes.length)
    (hs : (g.addEdge kind source.id target.id .empty).Storable) :
    ∃ t', t.link kind source target = .ok (g.edges.length, t') ∧
      Stages t' base (g.addEdge kind source.id target.id .empty) := by
  have hstored := ht.tables.storeEdge_new kind hsource htarget hs
  rw [TablesTxn.link, ht.knowsNode, ht.knowsNode, decide_eq_true hsource, decide_eq_true htarget]
  simp only [ht.tables.nextEdge]
  exact ⟨_, rfl, hstored, ht.baseNode, ht.baseEdge⟩

theorem setEdge (ht : Stages t base g) (edge : Nat) (name value : String) :
    (g.edges.length ≤ edge → t.setEdge edge name value = .error (.notFound (edgeHandle edge))) ∧
      (edge < g.edges.length → edge < base.edges.length →
        t.setEdge edge name value = .error (.immutable (edgeHandle edge))) ∧
      (edge < g.edges.length → base.edges.length ≤ edge →
        (g.setEdge edge name value).Storable →
        ∃ t', t.setEdge edge name value = .ok t' ∧ Stages t' base (g.setEdge edge name value)) := by
  rw [TablesTxn.setEdge, ht.tables.loadEdge, ht.tables.sound.edgeById?, ← ht.baseEdge]
  refine ⟨fun hle => ?_, fun hlt hbase => ?_, fun hlt hbase hs => ?_⟩
  · rw [List.getElem?_eq_none hle]
    rfl
  · rw [List.getElem?_eq_getElem hlt]
    simp only [bind, Except.bind, if_pos hbase]
    rfl
  · obtain ⟨e, he⟩ : ∃ e, g.edges[edge]? = some e := ⟨_, List.getElem?_eq_getElem hlt⟩
    obtain rfl := ht.tables.sound.getElem?_edge_id he
    rw [he]
    simp only [bind, Except.bind, if_neg (Nat.not_lt.2 hbase)]
    exact ⟨_, rfl, ht.tables.storeEdge_old he name value hs, ht.baseNode, ht.baseEdge⟩

/-- Every call that succeeds does what it is meant to do, with nodes found by their names. -/
theorem performBy_ok (ht : Stages t base g) {c : TxnCall} {a : c.Answer}
    (hrun : Snapshot.performBy byName base g c = .ok (a, h)) (hs : h.Storable) :
    ∃ t', TablesTxn.perform t c = .ok (a, t') ∧ Stages t' base h := by
  cases c with
  | find kind key =>
    cases hrun
    refine ⟨t, ?_, ht⟩
    rw [TablesTxn.perform, ht.find?]
    rfl
  | create kind key =>
    simp only [Snapshot.performBy, Snapshot.perform] at hrun
    split at hrun
    · cases hrun
    · next hnew =>
      cases hrun
      exact ht.create (by simpa using hnew) hs
  | setNode node name value =>
    simp only [Snapshot.performBy, byName] at hrun
    cases hn : g.node? node.kind node.key with
    | none =>
      rw [hn] at hrun
      cases hrun
    | some n =>
      rw [hn, Option.map_some] at hrun
      by_cases hlt : n.id < base.nodes.length
      · simp only [if_pos hlt] at hrun
        cases hrun
      · simp only [if_neg hlt] at hrun
        cases hrun
        obtain ⟨t', ht', hstages⟩ := (ht.setNode_some hn name value).2 (Nat.not_lt.1 hlt) hs
        exact ⟨t', by rw [TablesTxn.perform, ht']; rfl, hstages⟩
  | link kind source target =>
    simp only [Snapshot.performBy] at hrun
    split at hrun
    · cases hrun
    · next hsource =>
      split at hrun
      · cases hrun
      · next htarget =>
        cases hrun
        exact ht.link kind (Nat.not_le.1 hsource) (Nat.not_le.1 htarget) hs
  | setEdge edge name value =>
    by_cases hbase : edge < base.edges.length
    · simp only [Snapshot.performBy, Snapshot.perform, if_pos hbase] at hrun
      cases hrun
    · by_cases hlt : edge < g.edges.length
      · simp only [Snapshot.performBy, Snapshot.perform, if_neg hbase, if_pos hlt] at hrun
        cases hrun
        obtain ⟨t', ht', hstages⟩ := (ht.setEdge edge name value).2.2 hlt (Nat.not_lt.1 hbase) hs
        exact ⟨t', by rw [TablesTxn.perform, ht']; rfl, hstages⟩
      · simp only [Snapshot.performBy, Snapshot.perform, if_neg hbase, if_neg hlt] at hrun
        cases hrun

/-- Every call is refused where it is meant to be. -/
theorem performBy_error (ht : Stages t base g) (hbase : Extends base g) {c : TxnCall}
    {e : StoreError} (hrun : Snapshot.performBy byName base g c = .error e) :
    TablesTxn.perform t c = .error e := by
  cases c with
  | find kind key => cases hrun
  | create kind key =>
    simp only [Snapshot.performBy, Snapshot.perform] at hrun
    split at hrun
    · next hold =>
      cases hrun
      obtain ⟨n, hn⟩ := Option.isSome_iff_exists.1 hold
      rw [TablesTxn.perform, TablesTxn.create, ht.tables.loadNode, hn]
      rfl
    · cases hrun
  | setNode node name value =>
    simp only [Snapshot.performBy, byName] at hrun
    rw [TablesTxn.perform]
    cases hn : g.node? node.kind node.key with
    | none =>
      rw [hn] at hrun
      cases hrun
      rw [ht.setNode_none hn]
      rfl
    | some n =>
      rw [hn, Option.map_some] at hrun
      by_cases hlt : n.id < base.nodes.length
      · simp only [if_pos hlt] at hrun
        cases hrun
        rw [(ht.setNode_some hn name value).1 hlt]
        rfl
      · simp only [if_neg hlt] at hrun
        cases hrun
  | link kind source target =>
    simp only [Snapshot.performBy] at hrun
    split at hrun
    · next hsource =>
      cases hrun
      simp [TablesTxn.perform, TablesTxn.link, ht.knowsNode, Nat.not_lt.2 hsource]
    · next hsource =>
      split at hrun
      · next htarget =>
        cases hrun
        simp [TablesTxn.perform, TablesTxn.link, ht.knowsNode, Nat.not_le.1 hsource,
          Nat.not_lt.2 htarget]
      · cases hrun
  | setEdge edge name value =>
    simp only [Snapshot.performBy, Snapshot.perform] at hrun
    rw [TablesTxn.perform]
    split at hrun
    · next hlt =>
      cases hrun
      rw [(ht.setEdge edge name value).2.1 (Nat.lt_of_lt_of_le hlt hbase.edges.length_le) hlt]
      rfl
    · split at hrun
      · cases hrun
      · next hend =>
        cases hrun
        rw [(ht.setEdge edge name value).1 (Nat.not_lt.1 hend)]
        rfl

end Stages

/-! ### The backend -/

/-- A durable store is opened again from the file that its tables were written to.

The format of this file stands for the one of the database, of which it is assumed that the
tables committed last come back when its file is opened. Of the format here that is proved:
tables that represent a graph can be opened again, and nothing else comes back for them
(`TablesFile.exists_openIn`, `TablesFile.decode?_of_openIn`). -/
instance : Storage Tables where
  empty := .empty
  Reopens t t' := ∃ (files : Files) (dir : String) (files' : Files),
    files.write? (TablesFile.pathIn dir) (TablesFile.encode t) = some files' ∧
      (TablesFile.openIn files' dir).1 = .ok t'

/-- A store can be closed and opened again at any time. -/
theorem Represents.reopens {t : Tables} {g : Snapshot} (h : t.Represents g) :
    Storage.Reopens t t := by
  obtain ⟨files, hwrite, hopen⟩ := TablesFile.exists_openIn (TablesFile.decode?_encode h.fits)
  exact ⟨_, _, files, hwrite, hopen⟩

/-- The store in tables has room for storable graphs. -/
def backend : Backend Tables where
  Shows := Tables.Represents
  Stages w base g := Tables.Stages w.2 base g ∧ Extends base g
  Room := Snapshot.Storable
  room_of_below := Storable.of_below
  shows_empty := represents_empty
  reopens := by
    rintro s s' g h ⟨files, dir, files', hwrite, hopen⟩
    have hdecode := TablesFile.decode?_of_openIn hwrite hopen
    rw [TablesFile.decode?_encode h.fits] at hdecode
    exact Option.some.inj hdecode ▸ h
  sound h := h.1.tables.sound
  extends_base h := h.2
  keepsCommitted := Tables.keepsCommitted
  snapshot {s g} h := by
    show (s.toSnapshot, s) = _
    rw [h.toSnapshot]
  lookup {s g} h kind key := by
    show (s.loadNode (compositeKey kind key), s) = _
    rw [h.loadNode]
  start {s g} h := ⟨s.start, rfl, ⟨h, h.nextNode, h.nextEdge⟩, .refl g⟩
  resolve := byName
  finds := finds_byName
  performBy_ok {w base g} h {c a g'} hrun hs := by
    obtain ⟨t, ht, hstages⟩ := h.1.performBy_ok hrun hs
    refine ⟨t, ?_, hstages, (step_of_performBy hrun).extends_base h.2⟩
    show (match TablesTxn.perform w.2 c with
      | .ok (answer, t) => (Except.ok answer, (w.1, t))
      | .error e => (.error e, w)) = _
    rw [ht]
  performBy_error {w base g} h {c e} hrun := by
    show (match TablesTxn.perform w.2 c with
      | .ok (answer, t) => (Except.ok answer, (w.1, t))
      | .error e => (.error e, w)) = _
    rw [h.1.performBy_error h.2 hrun]
  commit {s t base g} h := ⟨t.tables, rfl, h.1.tables⟩
  rollback _ _ := rfl

end Tables

end RulePaths
