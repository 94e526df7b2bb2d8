import RulePaths.Graph.Snapshot
import RulePaths.Proofs.Graph.RecordBytes
import Mathlib.Data.List.Nodup

/-!
# How a graph grows

A graph grows by nodes and edges that are put behind the ones that are there, each under the next
number. In a graph that has grown like this every record stands at the place of its number, every
edge has both its ends, and a node is known by its kind and its key.

## Main definitions

- `Snapshot.addNode`, `Snapshot.addEdge` — one more node, one more edge
- `Snapshot.setNode`, `Snapshot.setEdge` — a property of the record with a number
- `Snapshot.Sound` — what holds of every graph that has grown like this
- `Snapshot.Extends` — a graph that starts with all records of another one
- `Snapshot.Storable` — a graph whose numbers and lengths have 64 bits

## Main results

- `Snapshot.Sound.addNode`, `Snapshot.Sound.addEdge` — growing keeps a graph sound
- `Snapshot.Storable.of_below` — what a storable graph has grown from is storable
-/

namespace RulePaths

/-- What a node is known by. -/
def NodeRecord.name (n : NodeRecord) : NodeKind × String :=
  (n.kind, n.key)

@[simp] theorem NodeRecord.name_mk (id : Nat) (kind : NodeKind) (key : String) (ps : Properties) :
    NodeRecord.name ⟨id, kind, key, ps⟩ = (kind, key) :=
  rfl

namespace Snapshot

variable {f g h : Snapshot} {kind : NodeKind} {key : String}

/-- The graph with one more node. -/
def addNode (g : Snapshot) (kind : NodeKind) (key : String) (ps : Properties) : Snapshot :=
  { g with nodes := g.nodes ++ [⟨g.nodes.length, kind, key, ps⟩] }

/-- The graph with one more edge. -/
def addEdge (g : Snapshot) (kind : EdgeKind) (source target : Nat) (ps : Properties) : Snapshot :=
  { g with edges := g.edges ++ [⟨g.edges.length, kind, source, target, ps⟩] }

/-- The graph with a property of a node set. -/
def setNode (g : Snapshot) (id : Nat) (name value : String) : Snapshot :=
  { g with nodes := g.nodes.modify id fun n => n.setProperty name value }

/-- The graph with a property of an edge set. -/
def setEdge (g : Snapshot) (id : Nat) (name value : String) : Snapshot :=
  { g with edges := g.edges.modify id fun e => e.setProperty name value }

@[simp] theorem nodes_addNode (g : Snapshot) (kind : NodeKind) (key : String) (ps : Properties) :
    (g.addNode kind key ps).nodes = g.nodes ++ [⟨g.nodes.length, kind, key, ps⟩] :=
  rfl

@[simp] theorem edges_addNode (g : Snapshot) (kind : NodeKind) (key : String) (ps : Properties) :
    (g.addNode kind key ps).edges = g.edges :=
  rfl

@[simp] theorem nodes_addEdge (g : Snapshot) (kind : EdgeKind) (source target : Nat)
    (ps : Properties) : (g.addEdge kind source target ps).nodes = g.nodes :=
  rfl

@[simp] theorem edges_addEdge (g : Snapshot) (kind : EdgeKind) (source target : Nat)
    (ps : Properties) : (g.addEdge kind source target ps).edges =
      g.edges ++ [⟨g.edges.length, kind, source, target, ps⟩] :=
  rfl

theorem modify_length_concat {α : Type} (l : List α) (a : α) (f : α → α) :
    (l ++ [a]).modify l.length f = l ++ [f a] := by
  induction l with
  | nil => rfl
  | cons b l ih => simp [ih]

/-- A node that was just added gets its first property. -/
theorem setNode_addNode (g : Snapshot) (kind : NodeKind) (key : String) (ps : Properties)
    (name value : String) :
    (g.addNode kind key ps).setNode g.nodes.length name value =
      g.addNode kind key (ps.insert name value) := by
  simp only [setNode, addNode, modify_length_concat]
  rfl

/-- An edge that was just added gets its first property. -/
theorem setEdge_addEdge (g : Snapshot) (kind : EdgeKind) (source target : Nat) (ps : Properties)
    (name value : String) :
    (g.addEdge kind source target ps).setEdge g.edges.length name value =
      g.addEdge kind source target (ps.insert name value) := by
  simp only [setEdge, addEdge, modify_length_concat]
  rfl

/-! ### Sound graphs -/

section Numbered

variable {α : Type} {number : α → Nat} {l : List α}

theorem number_of_getElem? (h : l.map number = List.range l.length) {i : Nat} {a : α}
    (ha : l[i]? = some a) : number a = i := by
  obtain ⟨hi, rfl⟩ := List.getElem?_eq_some_iff.1 ha
  have h := congrArg (·[i]?) h
  simpa [hi] using h

theorem getElem?_number_of_mem (h : l.map number = List.range l.length) {a : α} (ha : a ∈ l) :
    l[number a]? = some a := by
  obtain ⟨i, hi⟩ := List.mem_iff_getElem?.1 ha
  rw [number_of_getElem? h hi, hi]

/-- Where every element stands at the place of its number, the element with a number is the one
at that place. -/
theorem find?_number (h : l.map number = List.range l.length) (i : Nat) :
    (l.find? fun a => number a == i) = l[i]? := by
  have hnodup : (l.map number).Nodup := h ▸ List.nodup_range
  refine Option.ext fun a => ?_
  rw [find?_key_eq_some_iff number hnodup]
  constructor
  · rintro ⟨ha, rfl⟩
    exact getElem?_number_of_mem h ha
  · exact fun ha => ⟨List.mem_of_getElem? ha, number_of_getElem? h ha⟩

end Numbered

/-- Every record stands at the place of its number, every edge has both its ends, and no two nodes
share their kind and key. -/
structure Sound (g : Snapshot) : Prop where
  nodes : g.nodes.map NodeRecord.id = List.range g.nodes.length
  edges : g.edges.map EdgeRecord.id = List.range g.edges.length
  ends : ∀ e ∈ g.edges, e.source < g.nodes.length ∧ e.target < g.nodes.length
  unique : (g.nodes.map NodeRecord.name).Nodup

theorem sound_empty : Sound empty where
  nodes := rfl
  edges := rfl
  ends _ h := nomatch h
  unique := .nil

theorem node?_eq_none_iff :
    g.node? kind key = none ↔ (kind, key) ∉ g.nodes.map NodeRecord.name := by
  simp only [node?, List.find?_eq_none, Bool.and_eq_true, beq_iff_eq, List.mem_map, not_exists,
    not_and, NodeRecord.name, Prod.mk.injEq]

theorem name_of_node? {n : NodeRecord} (hn : g.node? kind key = some n) : n.name = (kind, key) := by
  have := List.find?_some hn
  simp only [Bool.and_eq_true, beq_iff_eq] at this
  exact Prod.ext this.1 this.2

theorem mem_of_node? {n : NodeRecord} (hn : g.node? kind key = some n) : n ∈ g.nodes :=
  List.mem_of_find?_eq_some hn

namespace Sound

theorem node?_eq_some_iff (hg : g.Sound) {n : NodeRecord} :
    g.node? kind key = some n ↔ n ∈ g.nodes ∧ n.name = (kind, key) :=
  find?_key_eq_some_iff (k := (kind, key)) NodeRecord.name hg.unique

theorem getElem?_id (hg : g.Sound) {i : Nat} {n : NodeRecord} (hn : g.nodes[i]? = some n) :
    n.id = i :=
  number_of_getElem? hg.nodes hn

theorem getElem?_edge_id (hg : g.Sound) {i : Nat} {e : EdgeRecord} (he : g.edges[i]? = some e) :
    e.id = i :=
  number_of_getElem? hg.edges he

theorem getElem?_of_mem (hg : g.Sound) {n : NodeRecord} (hn : n ∈ g.nodes) :
    g.nodes[n.id]? = some n :=
  getElem?_number_of_mem hg.nodes hn

theorem getElem?_edge_of_mem (hg : g.Sound) {e : EdgeRecord} (he : e ∈ g.edges) :
    g.edges[e.id]? = some e :=
  getElem?_number_of_mem hg.edges he

theorem id_lt (hg : g.Sound) {n : NodeRecord} (hn : n ∈ g.nodes) : n.id < g.nodes.length :=
  (List.getElem?_eq_some_iff.1 (hg.getElem?_of_mem hn)).1

theorem edge_id_lt (hg : g.Sound) {e : EdgeRecord} (he : e ∈ g.edges) : e.id < g.edges.length :=
  (List.getElem?_eq_some_iff.1 (hg.getElem?_edge_of_mem he)).1

theorem nodeById? (hg : g.Sound) (i : Nat) : g.nodeById? i = g.nodes[i]? :=
  find?_number hg.nodes i

theorem edgeById? (hg : g.Sound) (i : Nat) : g.edgeById? i = g.edges[i]? :=
  find?_number hg.edges i

theorem addNode (hg : g.Sound) (hnew : g.node? kind key = none) (ps : Properties) :
    (g.addNode kind key ps).Sound where
  nodes := by simp [hg.nodes, List.range_succ]
  edges := hg.edges
  ends e he := by
    have := hg.ends e he
    simp only [nodes_addNode, List.length_append, List.length_singleton]
    omega
  unique := by
    rw [nodes_addNode, List.map_append, List.map_singleton, NodeRecord.name_mk]
    refine hg.unique.append (List.nodup_singleton _) ?_
    simpa using node?_eq_none_iff.1 hnew

theorem addEdge (hg : g.Sound) (kind : EdgeKind) {source target : Nat}
    (hsource : source < g.nodes.length) (htarget : target < g.nodes.length) (ps : Properties) :
    (g.addEdge kind source target ps).Sound where
  nodes := hg.nodes
  edges := by simp [hg.edges, List.range_succ]
  ends e he := by
    rcases List.mem_append.1 he with he | he
    · exact hg.ends e he
    · obtain rfl := List.mem_singleton.1 he
      exact ⟨hsource, htarget⟩
  unique := hg.unique

end Sound

theorem map_modify_eq {α β : Type} {f : α → β} {m : α → α} (hm : ∀ a, f (m a) = f a) (l : List α)
    (i : Nat) : (l.modify i m).map f = l.map f := by
  apply List.ext_getElem?
  intro j
  rw [List.getElem?_map, List.getElem?_map, List.getElem?_modify]
  cases l[j]? with
  | none => rfl
  | some a => by_cases h : i = j <;> simp [h, hm]

theorem Sound.setNode (hg : g.Sound) (id : Nat) (name value : String) :
    (g.setNode id name value).Sound where
  nodes := by
    show (g.nodes.modify id _).map _ = List.range (g.nodes.modify id _).length
    rw [map_modify_eq (f := NodeRecord.id) (m := fun n => n.setProperty name value) fun _ => rfl,
      List.length_modify, hg.nodes]
  edges := hg.edges
  ends e he := by
    rw [Snapshot.setNode, List.length_modify]
    exact hg.ends e he
  unique := by
    show ((g.nodes.modify id _).map _).Nodup
    rw [map_modify_eq (f := NodeRecord.name) (m := fun n => n.setProperty name value) fun _ => rfl]
    exact hg.unique

theorem Sound.setEdge (hg : g.Sound) (id : Nat) (name value : String) :
    (g.setEdge id name value).Sound where
  nodes := hg.nodes
  edges := by
    show (g.edges.modify id _).map _ = List.range (g.edges.modify id _).length
    rw [map_modify_eq (f := EdgeRecord.id) (m := fun e => e.setProperty name value) fun _ => rfl,
      List.length_modify, hg.edges]
  ends e he := by
    obtain ⟨i, hi⟩ := List.mem_iff_getElem?.1 he
    rw [Snapshot.setEdge, List.getElem?_modify] at hi
    obtain ⟨a, ha, rfl⟩ := Option.map_eq_some_iff.1 hi
    have := hg.ends a (List.mem_of_getElem? ha)
    split <;> exact this
  unique := hg.unique

/-! ### What is left as it was -/

/-- All records of the first graph are in the second one as they were, before any other. -/
structure Extends (g h : Snapshot) : Prop where
  nodes : g.nodes <+: h.nodes
  edges : g.edges <+: h.edges

theorem Extends.refl (g : Snapshot) : Extends g g :=
  ⟨List.prefix_refl _, List.prefix_refl _⟩

theorem Extends.trans (hfg : Extends f g) (hgh : Extends g h) : Extends f h :=
  ⟨hfg.nodes.trans hgh.nodes, hfg.edges.trans hgh.edges⟩

theorem modify_append_right {α : Type} (l r : List α) {i : Nat} (h : l.length ≤ i) (f : α → α) :
    (l ++ r).modify i f = l ++ r.modify (i - l.length) f := by
  induction l generalizing i with
  | nil => simp
  | cons a l ih =>
    obtain ⟨j, rfl⟩ : ∃ j, i = j + 1 := ⟨i - 1, by simp at h; omega⟩
    simp [ih (by simpa using h)]

/-- What stands behind a prefix can be changed without touching it. -/
theorem prefix_modify {α : Type} {l m : List α} (h : l <+: m) {i : Nat} (hi : l.length ≤ i)
    (f : α → α) : l <+: m.modify i f := by
  obtain ⟨r, rfl⟩ := h
  rw [modify_append_right l r hi]
  exact List.prefix_append _ _

/-! ### What can be stored -/

/-- Every record of the first graph stands at its place in the second one, where it is no shorter
when written. -/
structure Below (g h : Snapshot) : Prop where
  nodes : ∀ (i : Nat) (n : NodeRecord), g.nodes[i]? = some n → ∃ m, h.nodes[i]? = some m ∧
    (RecordBytes.encodeNode n).length ≤ (RecordBytes.encodeNode m).length
  edges : ∀ (i : Nat) (e : EdgeRecord), g.edges[i]? = some e → ∃ f, h.edges[i]? = some f ∧
    (RecordBytes.encodeEdge e).length ≤ (RecordBytes.encodeEdge f).length

/-- The numbers of nodes and edges and the lengths of their records have 64 bits. -/
structure Storable (g : Snapshot) : Prop where
  nodes : g.nodes.length < 2 ^ 64
  edges : g.edges.length < 2 ^ 64
  node : ∀ n ∈ g.nodes, (RecordBytes.encodeNode n).length < 2 ^ 64
  edge : ∀ e ∈ g.edges, (RecordBytes.encodeEdge e).length < 2 ^ 64

instance (g : Snapshot) : Decidable g.Storable :=
  decidable_of_iff (g.nodes.length < 2 ^ 64 ∧ g.edges.length < 2 ^ 64 ∧
      (∀ n ∈ g.nodes, (RecordBytes.encodeNode n).length < 2 ^ 64) ∧
        ∀ e ∈ g.edges, (RecordBytes.encodeEdge e).length < 2 ^ 64)
    ⟨fun ⟨hnodes, hedges, hnode, hedge⟩ => ⟨hnodes, hedges, hnode, hedge⟩,
      fun h => ⟨h.nodes, h.edges, h.node, h.edge⟩⟩

namespace Below

theorem refl (g : Snapshot) : Below g g :=
  ⟨fun _ n hn => ⟨n, hn, Nat.le_refl _⟩, fun _ e he => ⟨e, he, Nat.le_refl _⟩⟩

theorem trans (hfg : Below f g) (hgh : Below g h) : Below f h where
  nodes i n hn := by
    obtain ⟨m, hm, hle⟩ := hfg.nodes i n hn
    obtain ⟨k, hk, hle'⟩ := hgh.nodes i m hm
    exact ⟨k, hk, Nat.le_trans hle hle'⟩
  edges i e he := by
    obtain ⟨m, hm, hle⟩ := hfg.edges i e he
    obtain ⟨k, hk, hle'⟩ := hgh.edges i m hm
    exact ⟨k, hk, Nat.le_trans hle hle'⟩

theorem addNode (g : Snapshot) (kind : NodeKind) (key : String) (ps : Properties) :
    Below g (g.addNode kind key ps) where
  nodes i n hn := ⟨n, by rw [nodes_addNode, List.getElem?_append_left
    (List.getElem?_eq_some_iff.1 hn).1, hn], Nat.le_refl _⟩
  edges i e he := ⟨e, he, Nat.le_refl _⟩

theorem addEdge (g : Snapshot) (kind : EdgeKind) (source target : Nat) (ps : Properties) :
    Below g (g.addEdge kind source target ps) where
  nodes i n hn := ⟨n, hn, Nat.le_refl _⟩
  edges i e he := ⟨e, by rw [edges_addEdge, List.getElem?_append_left
    (List.getElem?_eq_some_iff.1 he).1, he], Nat.le_refl _⟩

end Below

theorem Below.addNode_empty (g : Snapshot) (kind : NodeKind) (key : String) (ps : Properties) :
    Below (g.addNode kind key .empty) (g.addNode kind key ps) where
  nodes i n hn := by
    rw [nodes_addNode, List.getElem?_append] at hn ⊢
    split at hn
    · next hi => exact ⟨n, by rw [if_pos hi, hn], Nat.le_refl _⟩
    · next hi =>
      obtain ⟨hi', rfl⟩ := List.getElem?_eq_some_iff.1 hn
      obtain hi0 : i - g.nodes.length = 0 := by simpa using hi'
      refine ⟨_, by rw [if_neg hi, hi0]; rfl, ?_⟩
      simp [RecordBytes.length_encodeNode, RecordBytes.writeProperties, Table.empty, hi0]
  edges i e he := ⟨e, he, Nat.le_refl _⟩

theorem Below.addEdge_empty (g : Snapshot) (kind : EdgeKind) (source target : Nat)
    (ps : Properties) :
    Below (g.addEdge kind source target .empty) (g.addEdge kind source target ps) where
  nodes i n hn := ⟨n, hn, Nat.le_refl _⟩
  edges i e he := by
    rw [edges_addEdge, List.getElem?_append] at he ⊢
    split at he
    · next hi => exact ⟨e, by rw [if_pos hi, he], Nat.le_refl _⟩
    · next hi =>
      obtain ⟨hi', rfl⟩ := List.getElem?_eq_some_iff.1 he
      obtain hi0 : i - g.edges.length = 0 := by simpa using hi'
      refine ⟨_, by rw [if_neg hi, hi0]; rfl, ?_⟩
      simp [RecordBytes.length_encodeEdge, RecordBytes.writeProperties, Table.empty, hi0]
      omega

theorem length_le_of_getElem? {α β : Type} {as : List α} {bs : List β}
    (h : ∀ (i : Nat) (a : α), as[i]? = some a → ∃ b, bs[i]? = some b) :
    as.length ≤ bs.length := by
  by_contra hlt
  obtain ⟨b, hb⟩ := h bs.length as[bs.length] (List.getElem?_eq_getElem (by omega))
  simp at hb

theorem Below.length_nodes_le (h : Below f g) : f.nodes.length ≤ g.nodes.length :=
  length_le_of_getElem? fun i n hn => (h.nodes i n hn).imp fun _ => And.left

theorem Below.length_edges_le (h : Below f g) : f.edges.length ≤ g.edges.length :=
  length_le_of_getElem? fun i e he => (h.edges i e he).imp fun _ => And.left

theorem Storable.of_below (hbelow : Below f g) (hg : Storable g) : Storable f where
  nodes := Nat.lt_of_le_of_lt hbelow.length_nodes_le hg.nodes
  edges := Nat.lt_of_le_of_lt hbelow.length_edges_le hg.edges
  node n hn := by
    obtain ⟨i, hi⟩ := List.mem_iff_getElem?.1 hn
    obtain ⟨m, hm, hle⟩ := hbelow.nodes i n hi
    exact Nat.lt_of_le_of_lt hle (hg.node m (List.mem_of_getElem? hm))
  edge e he := by
    obtain ⟨i, hi⟩ := List.mem_iff_getElem?.1 he
    obtain ⟨e', he', hle⟩ := hbelow.edges i e hi
    exact Nat.lt_of_le_of_lt hle (hg.edge e' (List.mem_of_getElem? he'))

end Snapshot

end RulePaths
