import RulePaths.Proofs.Graph.Reference

/-!
# Nodes and edges without numbers

Numbers only tell which nodes an edge connects. A sound graph is known by the keys of its nodes and
by its links: its edges with the names of the nodes at their ends.

## Main definitions

- `Snapshot.keys` — the keys of the nodes of a kind
- `Snapshot.links` — the edges of a kind by the names of their ends

## Main results

- `Sound.map_linkOf_edgesInto`, `Sound.map_linkOf_edgesOutOf` — the edges at a node are the links
  with its name
-/

namespace RulePaths

namespace Snapshot

/-- The keys of the nodes of a kind, in the order in which they were created. -/
def keys (g : Snapshot) (kind : NodeKind) : List String :=
  (g.nodesOf kind).map NodeRecord.key

/-- The name of the node with a number. -/
def nameOf (g : Snapshot) (id : Nat) : Option (NodeKind × String) :=
  g.nodes[id]?.map NodeRecord.name

/-- An edge by the names of its ends. -/
structure Link where
  source : Option (NodeKind × String)
  target : Option (NodeKind × String)
  properties : Properties

/-- An edge of a graph by the names of its ends. -/
def linkOf (g : Snapshot) (e : EdgeRecord) : Link :=
  ⟨g.nameOf e.source, g.nameOf e.target, e.properties⟩

/-- The edges of a kind by the names of their ends, in the order in which they were created. -/
def links (g : Snapshot) (kind : EdgeKind) : List Link :=
  (g.edgesOf kind).map g.linkOf

variable {g h : Snapshot} {kind kind' : NodeKind} {key : String} {node : NodeRef}

theorem mem_keys_iff : key ∈ g.keys kind ↔ (kind, key) ∈ g.nodes.map NodeRecord.name := by
  simp [keys, nodesOf, NodeRecord.name, and_assoc]

theorem node?_eq_none_iff_keys : g.node? kind key = none ↔ key ∉ g.keys kind := by
  rw [node?_eq_none_iff, mem_keys_iff]

theorem nodesOf_addNode (g : Snapshot) (kind : NodeKind) (key : String) (ps : Properties) :
    (g.addNode kind key ps).nodesOf kind =
      g.nodesOf kind ++ [⟨g.nodes.length, kind, key, ps⟩] := by
  simp [nodesOf]

theorem nodesOf_addNode_of_ne (g : Snapshot) (h : kind ≠ kind') (key : String) (ps : Properties) :
    (g.addNode kind key ps).nodesOf kind' = g.nodesOf kind' := by
  simp [nodesOf, h]

theorem Has.nameOf (h : g.Has node) : g.nameOf node.id = some (node.kind, node.key) := by
  obtain ⟨n, hn, rfl⟩ := h.exists_getElem?
  rw [Snapshot.nameOf, hn]
  rfl

theorem nameOf_addNode (g : Snapshot) (kind : NodeKind) (key : String) (ps : Properties) {i : Nat}
    (h : i < g.nodes.length) : (g.addNode kind key ps).nameOf i = g.nameOf i := by
  rw [nameOf, nodes_addNode, List.getElem?_append_left h, nameOf]

theorem links_addNode (hg : g.Sound) (kind : NodeKind) (key : String) (ps : Properties)
    (kind' : EdgeKind) : (g.addNode kind key ps).links kind' = g.links kind' := by
  apply List.map_congr_left
  intro e he
  obtain ⟨hsource, htarget⟩ := hg.ends e (List.mem_of_mem_filter he)
  rw [linkOf, nameOf_addNode _ _ _ _ hsource, nameOf_addNode _ _ _ _ htarget]
  rfl

theorem links_addEdge (g : Snapshot) (kind kind' : EdgeKind) (source target : Nat)
    (ps : Properties) :
    (g.addEdge kind source target ps).links kind' = g.links kind' ++
      if kind = kind' then [⟨g.nameOf source, g.nameOf target, ps⟩] else [] := by
  have hedges : (g.addEdge kind source target ps).edgesOf kind' = g.edgesOf kind' ++
      if kind = kind' then [⟨g.edges.length, kind, source, target, ps⟩] else [] := by
    by_cases h : kind = kind' <;> simp [edgesOf, h]
  show ((g.addEdge kind source target ps).edgesOf kind').map g.linkOf = _
  rw [hedges, List.map_append]
  by_cases h : kind = kind' <;> simp [links, linkOf, h]

/-! ### The edges at a node -/

theorem Sound.nameOf_id (hg : g.Sound) {n : NodeRecord} (hn : n ∈ g.nodes) :
    g.nameOf n.id = some n.name := by
  rw [nameOf, hg.getElem?_of_mem hn]
  rfl

theorem Sound.nameOf_eq_iff (hg : g.Sound) {n : NodeRecord} (hn : n ∈ g.nodes) {i : Nat} :
    g.nameOf i = some n.name ↔ i = n.id := by
  refine ⟨fun h => ?_, fun h => h ▸ hg.nameOf_id hn⟩
  obtain ⟨m, hm, hname⟩ := Option.map_eq_some_iff.1 h
  obtain rfl := List.inj_on_of_nodup_map hg.unique (List.mem_of_getElem? hm) hn hname
  exact (hg.getElem?_id hm).symm

/-- The end of an edge is a node of the kind and the key that its name tells. -/
theorem Sound.exists_of_nameOf (hg : g.Sound) {i : Nat} (h : g.nameOf i = some (kind, key)) :
    ∃ n ∈ g.nodesOf kind, n.id = i ∧ n.key = key := by
  obtain ⟨n, hn, hname⟩ := Option.map_eq_some_iff.1 h
  simp only [NodeRecord.name, Prod.mk.injEq] at hname
  refine ⟨n, ?_, hg.getElem?_id hn, hname.2⟩
  exact List.mem_filter.2 ⟨List.mem_of_getElem? hn, by simp [hname.1]⟩

theorem mem_nodesOf {n : NodeRecord} : n ∈ g.nodesOf kind ↔ n ∈ g.nodes ∧ n.kind = kind := by
  simp [nodesOf]

theorem name_of_mem_nodesOf {n : NodeRecord} (hn : n ∈ g.nodesOf kind) : n.name = (kind, n.key) :=
  Prod.ext (mem_nodesOf.1 hn).2 rfl

theorem Sound.map_linkOf_edgesInto (hg : g.Sound) {n : NodeRecord} (hn : n ∈ g.nodes)
    (kind : EdgeKind) : (g.edgesInto kind n.id).map g.linkOf =
      (g.links kind).filter fun l => l.target == some n.name := by
  rw [links, List.filter_map, edgesInto]
  congr 1
  refine List.filter_congr fun e _ => ?_
  rw [Bool.eq_iff_iff, beq_iff_eq, Function.comp, beq_iff_eq]
  exact (hg.nameOf_eq_iff hn).symm

theorem Sound.map_linkOf_edgesOutOf (hg : g.Sound) {n : NodeRecord} (hn : n ∈ g.nodes)
    (kind : EdgeKind) : (g.edgesOutOf kind n.id).map g.linkOf =
      (g.links kind).filter fun l => l.source == some n.name := by
  rw [links, List.filter_map, edgesOutOf]
  congr 1
  refine List.filter_congr fun e _ => ?_
  rw [Bool.eq_iff_iff, beq_iff_eq, Function.comp, beq_iff_eq]
  exact (hg.nameOf_eq_iff hn).symm

end Snapshot

end RulePaths
