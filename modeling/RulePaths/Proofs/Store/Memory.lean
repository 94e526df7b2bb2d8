import RulePaths.Proofs.Store.Backend

/-!
# The store in memory holds a graph

The arrays of a store in memory are the lists of the graph, and its index leads from every name to
the place of the node of this name. An open transaction holds the part of the graph that comes
after the committed one, with an index of its own.

## Main definitions

- `Indexes` — an index leads to the places of the nodes
- `MemoryStore.backend` — the store in memory as a backend
-/

namespace RulePaths

open Snapshot

/-- The index leads from every name to the place of the node of this name. -/
def Indexes (index : NodeIndex) (nodes : List NodeRecord) : Prop :=
  ∀ kind key i, index.lookup (kind, key) = some i ↔
    ∃ n, nodes[i]? = some n ∧ n.name = (kind, key)

namespace Indexes

variable {index : NodeIndex} {nodes : List NodeRecord}

theorem nil : Indexes [] [] := by
  simp [Indexes]

/-- What the index leads to is the node of the name. -/
theorem bind_lookup_eq_some_iff (h : Indexes index nodes) {kind : NodeKind} {key : String}
    {n : NodeRecord} :
    ((index.lookup (kind, key)).bind fun i => nodes[i]?) = some n ↔
      n ∈ nodes ∧ n.name = (kind, key) := by
  rw [Option.bind_eq_some_iff]
  constructor
  · rintro ⟨i, hi, hn⟩
    obtain ⟨m, hm, hname⟩ := (h kind key i).1 hi
    obtain rfl : m = n := Option.some.inj (hm.symm.trans hn)
    exact ⟨List.mem_of_getElem? hn, hname⟩
  · rintro ⟨hn, hname⟩
    obtain ⟨i, hi⟩ := List.mem_iff_getElem?.1 hn
    exact ⟨i, (h kind key i).2 ⟨n, hi, hname⟩, hi⟩

/-- A node with a new name is put behind the others. -/
theorem concat (h : Indexes index nodes) {n : NodeRecord}
    (hnew : n.name ∉ nodes.map NodeRecord.name) :
    Indexes ((n.name, nodes.length) :: index) (nodes ++ [n]) := by
  intro kind key i
  rw [List.lookup_cons]
  by_cases hname : (kind, key) = n.name
  · rw [hname, beq_self_eq_true]
    show some nodes.length = some i ↔ _
    rw [Option.some.injEq]
    constructor
    · rintro rfl
      exact ⟨n, by simp, rfl⟩
    · rintro ⟨m, hm, hmn⟩
      -- the name is not among the old ones, so it stands at the end
      rcases Nat.lt_trichotomy i nodes.length with hlt | heq | hgt
      · rw [List.getElem?_append_left hlt] at hm
        exact absurd (hmn ▸ List.mem_map_of_mem (List.mem_of_getElem? hm)) hnew
      · exact heq.symm
      · rw [List.getElem?_eq_none (by simp; omega)] at hm
        cases hm
  · rw [beq_false_of_ne hname]
    show index.lookup (kind, key) = some i ↔ _
    rw [h kind key i]
    constructor
    · rintro ⟨m, hm, hmn⟩
      exact ⟨m, by rw [List.getElem?_append_left (List.getElem?_eq_some_iff.1 hm).1, hm], hmn⟩
    · rintro ⟨m, hm, hmn⟩
      rcases Nat.lt_trichotomy i nodes.length with hlt | rfl | hgt
      · exact ⟨m, by rwa [List.getElem?_append_left hlt] at hm, hmn⟩
      · obtain rfl : n = m := by simpa using hm
        exact absurd hmn.symm hname
      · rw [List.getElem?_eq_none (by simp; omega)] at hm
        cases hm

theorem addToIndex (h : Indexes index nodes) {ns : List NodeRecord}
    (hunique : ((nodes ++ ns).map NodeRecord.name).Nodup) :
    Indexes (MemoryStore.addToIndex nodes.length index ns) (nodes ++ ns) := by
  induction ns generalizing index nodes with
  | nil => simpa [MemoryStore.addToIndex] using h
  | cons n ns ih =>
    rw [List.append_cons] at hunique ⊢
    have hnew : n.name ∉ nodes.map NodeRecord.name := by
      rw [List.map_append] at hunique
      have := hunique.of_append_left
      rw [List.map_append, List.nodup_append] at this
      intro hmem
      exact this.2.2 _ hmem _ (by simp) rfl
    have := ih (h.concat hnew) hunique
    rwa [List.length_append, List.length_singleton] at this

/-- Names do not depend on properties. -/
theorem modify (h : Indexes index nodes) (j : Nat) (name value : String) :
    Indexes index (nodes.modify j fun n => n.setProperty name value) := by
  intro kind key i
  have hnames := map_modify_eq (f := NodeRecord.name) (m := fun n => n.setProperty name value)
    (fun _ => rfl) nodes j
  have hname : ∀ ns : List NodeRecord, (∃ n, ns[i]? = some n ∧ n.name = (kind, key)) ↔
      (ns.map NodeRecord.name)[i]? = some (kind, key) := by
    intro ns
    rw [List.getElem?_map, Option.map_eq_some_iff]
  rw [h kind key i, hname, hname, hnames]

end Indexes

namespace MemoryStore

/-- The arrays and the index of a store hold a graph. -/
structure Shows (s : MemoryStore) (g : Snapshot) : Prop where
  graph : s.toSnapshot = g
  sound : g.Sound
  index : Indexes s.index g.nodes

/-- A transaction holds what comes after the graph it started from. -/
structure Stages (s : MemoryStore) (t : MemoryTxn) (base g : Snapshot) : Prop where
  shows : s.Shows base
  baseNodes : t.baseNodes = base.nodes.length
  baseEdges : t.baseEdges = base.edges.length
  nodes : g.nodes = base.nodes ++ t.nodes.toList
  edges : g.edges = base.edges ++ t.edges.toList
  sound : g.Sound
  index : Indexes t.index t.nodes.toList

variable {s : MemoryStore} {t : MemoryTxn} {base g : Snapshot}

theorem Shows.find? (h : s.Shows g) (kind : NodeKind) (key : String) :
    s.find? kind key = g.node? kind key := by
  obtain ⟨rfl, hsound, hindex⟩ := h
  ext n
  rw [hsound.node?_eq_some_iff, ← hindex.bind_lookup_eq_some_iff]
  simp [MemoryStore.find?, toSnapshot]

theorem Stages.find? (h : Stages s t base g) (kind : NodeKind) (key : String) :
    t.find? s kind key = (g.node? kind key).map NodeRecord.toRef := by
  have hstaged : ∀ n, t.staged? kind key = some n ↔
      n ∈ t.nodes.toList ∧ n.name = (kind, key) := by
    intro n
    rw [← h.index.bind_lookup_eq_some_iff]
    simp [MemoryTxn.staged?]
  have hbase : ∀ n, s.find? kind key = some n ↔ n ∈ base.nodes ∧ n.name = (kind, key) := by
    intro n
    rw [h.shows.find?, h.shows.sound.node?_eq_some_iff]
  rw [MemoryTxn.find?]
  congr 1
  cases hfound : t.staged? kind key with
  | some m =>
    obtain ⟨hm, hname⟩ := (hstaged m).1 hfound
    have hmem : m ∈ g.nodes := h.nodes ▸ List.mem_append_right _ hm
    rw [h.sound.node?_eq_some_iff.2 ⟨hmem, hname⟩]
    rfl
  | none =>
    rw [Option.none_or]
    ext n
    rw [hbase, h.sound.node?_eq_some_iff, h.nodes, List.mem_append]
    refine ⟨fun ⟨hn, hname⟩ => ⟨.inl hn, hname⟩, fun ⟨hn, hname⟩ => ⟨hn.resolve_right ?_, hname⟩⟩
    intro hn
    cases hfound.symm.trans ((hstaged n).2 ⟨hn, hname⟩)

/-! ### Calls of a transaction -/

theorem Stages.length_nodes (h : Stages s t base g) :
    g.nodes.length = t.baseNodes + t.nodes.size := by
  rw [h.nodes, List.length_append, h.baseNodes, Array.length_toList]

theorem Stages.length_edges (h : Stages s t base g) :
    g.edges.length = t.baseEdges + t.edges.size := by
  rw [h.edges, List.length_append, h.baseEdges, Array.length_toList]

theorem Stages.create (h : Stages s t base g) {kind : NodeKind} {key : String}
    (hnew : g.node? kind key = none) :
    ∃ t', t.create s kind key = .ok (⟨g.nodes.length, kind, key⟩, t') ∧
      Stages s t' base (g.addNode kind key .empty) := by
  have hfound : (t.find? s kind key).isSome = false := by rw [h.find?, hnew]; rfl
  rw [MemoryTxn.create, if_neg (by simp [hfound]), ← h.length_nodes]
  refine ⟨_, rfl, ?_⟩
  have hname : (NodeRecord.new g.nodes.length kind key).name ∉
      t.nodes.toList.map NodeRecord.name := by
    have := node?_eq_none_iff.1 hnew
    rw [h.nodes, List.map_append, List.mem_append] at this
    exact fun hmem => this (.inr hmem)
  exact {
    shows := h.shows
    baseNodes := h.baseNodes
    baseEdges := h.baseEdges
    nodes := by rw [nodes_addNode, Array.toList_push, ← List.append_assoc, ← h.nodes]; rfl
    edges := h.edges
    sound := h.sound.addNode hnew .empty
    index := by
      have := h.index.concat hname
      rwa [Array.length_toList, ← Array.toList_push] at this }

theorem Stages.setNode (h : Stages s t base g) {node : NodeRef} (hlt : node.id < g.nodes.length)
    (hbase : base.nodes.length ≤ node.id) (name value : String) :
    ∃ t', t.setNode node name value = .ok t' ∧
      Stages s t' base (g.setNode node.id name value) := by
  rw [h.length_nodes] at hlt
  rw [← h.baseNodes] at hbase
  rw [MemoryTxn.setNode, if_neg (by omega), if_pos (by omega)]
  refine ⟨_, rfl, ?_⟩
  have hnodes : (g.setNode node.id name value).nodes = base.nodes ++
      t.nodes.toList.modify (node.id - t.baseNodes) fun n => n.setProperty name value := by
    rw [h.baseNodes] at hbase ⊢
    rw [Snapshot.setNode, h.nodes, modify_append_right _ _ hbase]
  exact {
    shows := h.shows
    baseNodes := h.baseNodes
    baseEdges := h.baseEdges
    nodes := by rw [hnodes, Array.toList_modify]
    edges := h.edges
    sound := h.sound.setNode _ _ _
    index := by
      rw [Array.toList_modify]
      exact h.index.modify _ _ _ }

theorem Stages.knowsNode (h : Stages s t base g) (id : Nat) :
    t.knowsNode id = decide (id < g.nodes.length) := by
  rw [MemoryTxn.knowsNode, h.length_nodes]

theorem Stages.link (h : Stages s t base g) (kind : EdgeKind) {source target : NodeRef}
    (hsource : source.id < g.nodes.length) (htarget : target.id < g.nodes.length) :
    ∃ t', t.link kind source target = .ok (g.edges.length, t') ∧
      Stages s t' base (g.addEdge kind source.id target.id .empty) := by
  rw [MemoryTxn.link, h.knowsNode, h.knowsNode, decide_eq_true hsource, decide_eq_true htarget,
    ← h.length_edges]
  refine ⟨_, rfl, ?_⟩
  exact {
    shows := h.shows
    baseNodes := h.baseNodes
    baseEdges := h.baseEdges
    nodes := h.nodes
    edges := by rw [edges_addEdge, Array.toList_push, ← List.append_assoc, ← h.edges]; rfl
    sound := h.sound.addEdge kind hsource htarget .empty
    index := h.index }

theorem Stages.setEdge (h : Stages s t base g) {edge : Nat} (hbase : base.edges.length ≤ edge)
    (hlt : edge < g.edges.length) (name value : String) :
    ∃ t', t.setEdge edge name value = .ok t' ∧
      Stages s t' base (g.setEdge edge name value) := by
  rw [h.length_edges] at hlt
  rw [← h.baseEdges] at hbase
  rw [MemoryTxn.setEdge, if_neg (by omega), if_pos (by omega)]
  refine ⟨_, rfl, ?_⟩
  have hedges : (g.setEdge edge name value).edges = base.edges ++
      t.edges.toList.modify (edge - t.baseEdges) fun e => e.setProperty name value := by
    rw [h.baseEdges] at hbase ⊢
    rw [Snapshot.setEdge, h.edges, modify_append_right _ _ hbase]
  exact {
    shows := h.shows
    baseNodes := h.baseNodes
    baseEdges := h.baseEdges
    nodes := h.nodes
    edges := by rw [hedges, Array.toList_modify]
    sound := h.sound.setEdge _ _ _
    index := h.index }

theorem Stages.extends_base (h : Stages s t base g) : Extends base g :=
  ⟨h.nodes ▸ List.prefix_append _ _, h.edges ▸ List.prefix_append _ _⟩

/-- Every call does what it is meant to do, with nodes found by their numbers. -/
theorem Stages.performBy (h : Stages s t base g) (c : TxnCall) :
    match Snapshot.performBy byNumber base g c with
    | .ok (a, g') => ∃ t', MemoryTxn.perform s t c = .ok (a, t') ∧ Stages s t' base g'
    | .error e => MemoryTxn.perform s t c = .error e := by
  have hbase := h.extends_base
  cases c with
  | find kind key =>
    refine ⟨t, ?_, h⟩
    rw [MemoryTxn.perform, h.find?]
  | create kind key =>
    simp only [Snapshot.performBy, Snapshot.perform, MemoryTxn.perform]
    cases hfound : g.node? kind key with
    | some n =>
      show t.create s kind key = _
      rw [MemoryTxn.create, h.find?, hfound]
      rfl
    | none => exact h.create hfound
  | setNode node name value =>
    simp only [Snapshot.performBy, byNumber, MemoryTxn.perform]
    by_cases hold : node.id < base.nodes.length
    · have hlt := Nat.lt_of_lt_of_le hold hbase.nodes.length_le
      simp only [if_pos hlt, if_pos hold, MemoryTxn.setNode, h.baseNodes]
      rfl
    · by_cases hlt : node.id < g.nodes.length
      · obtain ⟨t', ht', hstages⟩ := h.setNode hlt (Nat.not_lt.1 hold) name value
        simp only [if_pos hlt, if_neg hold]
        exact ⟨t', by rw [ht']; rfl, hstages⟩
      · have hstaged : ¬ node.id - t.baseNodes < t.nodes.size := by
          rw [h.length_nodes] at hlt
          omega
        simp only [if_neg hlt, MemoryTxn.setNode, if_neg hstaged]
        rw [h.baseNodes, if_neg hold]
        rfl
  | link kind source target =>
    simp only [Snapshot.performBy, MemoryTxn.perform]
    by_cases hsource : source.id < g.nodes.length
    · rw [if_neg (Nat.not_le.2 hsource)]
      by_cases htarget : target.id < g.nodes.length
      · rw [if_neg (Nat.not_le.2 htarget)]
        exact h.link kind hsource htarget
      · rw [if_pos (Nat.not_lt.1 htarget)]
        simp [MemoryTxn.link, h.knowsNode, hsource, htarget]
    · rw [if_pos (Nat.not_lt.1 hsource)]
      simp [MemoryTxn.link, h.knowsNode, hsource]
  | setEdge edge name value =>
    by_cases hlt : edge < base.edges.length
    · simp only [Snapshot.performBy, Snapshot.perform, MemoryTxn.perform, if_pos hlt,
        MemoryTxn.setEdge, h.baseEdges]
      rfl
    · simp only [Snapshot.performBy, Snapshot.perform, MemoryTxn.perform, if_neg hlt]
      by_cases hend : edge < g.edges.length
      · obtain ⟨t', ht', hstages⟩ := h.setEdge (Nat.not_lt.1 hlt) hend name value
        simp only [if_pos hend]
        exact ⟨t', by rw [ht']; rfl, hstages⟩
      · have hstaged : ¬ edge - t.baseEdges < t.edges.size := by
          rw [h.length_edges] at hend
          rw [← h.baseEdges] at hlt
          omega
        simp only [if_neg hend, MemoryTxn.setEdge, h.baseEdges, if_neg hlt]
        rw [← h.baseEdges, if_neg hstaged]
        rfl

/-! ### The backend -/

theorem Shows.start (h : s.Shows g) : Stages s s.start g g where
  shows := h
  baseNodes := by rw [← h.graph]; rfl
  baseEdges := by rw [← h.graph]; rfl
  nodes := by simp [MemoryStore.start]
  edges := by simp [MemoryStore.start]
  sound := h.sound
  index := .nil

theorem Stages.commit (h : Stages s t base g) : (s.commit t).Shows g where
  graph := by
    obtain rfl := h.shows.graph
    have hnodes : (s.commit t).toSnapshot.nodes = g.nodes := by
      rw [h.nodes]
      exact Array.toList_append
    have hedges : (s.commit t).toSnapshot.edges = g.edges := by
      rw [h.edges]
      exact Array.toList_append
    cases g
    cases hnodes
    cases hedges
    rfl
  sound := h.sound
  index := by
    obtain rfl := h.shows.graph
    have hunique := h.sound.unique
    rw [h.nodes] at hunique ⊢
    have := h.shows.index.addToIndex hunique
    rwa [toSnapshot, Array.length_toList] at this

theorem shows_empty : empty.Shows Snapshot.empty where
  graph := rfl
  sound := sound_empty
  index := .nil

end MemoryStore

/-- Opening a store in memory again is using it under another configuration. -/
instance : Storage MemoryStore where
  empty := .empty
  Reopens s s' := s' = s

/-- The store in memory has room for every graph. -/
def MemoryStore.backend : Backend MemoryStore where
  Shows := MemoryStore.Shows
  Stages w := MemoryStore.Stages w.1 w.2
  Room _ := True
  room_of_below _ _ := trivial
  shows_empty := MemoryStore.shows_empty
  reopens := by
    rintro s _ g h rfl
    exact h
  sound h := h.sound
  extends_base h := h.extends_base
  keepsCommitted := MemoryStore.keepsCommitted
  snapshot {s g} h := by
    show (Except.ok s.toSnapshot, s) = _
    rw [h.graph]
  lookup {s g} h kind key := by
    show (Except.ok (s.find? kind key), s) = _
    rw [h.find?]
  start {s g} h := ⟨s.start, rfl, h.start⟩
  resolve := byNumber
  finds := finds_byNumber
  performBy_ok {w base g} h {c a g'} hrun _ := by
    have hperform := h.performBy c
    rw [hrun] at hperform
    obtain ⟨t, ht, hstages⟩ := hperform
    refine ⟨t, ?_, hstages⟩
    show (match MemoryTxn.perform w.1 w.2 c with
      | .ok (answer, t) => (Except.ok answer, (w.1, t))
      | .error e => (.error e, w)) = _
    rw [ht]
  performBy_error {w base g} h {c e} hrun := by
    have hperform := h.performBy c
    rw [hrun] at hperform
    show (match MemoryTxn.perform w.1 w.2 c with
      | .ok (answer, t) => (Except.ok answer, (w.1, t))
      | .error e => (.error e, w)) = _
    rw [hperform]
  commit {s t base g} h := ⟨s.commit t, rfl, h.commit⟩
  rollback _ _ := rfl

end RulePaths
