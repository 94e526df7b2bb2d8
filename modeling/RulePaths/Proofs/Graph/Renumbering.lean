import RulePaths.Graph.Export
import RulePaths.Proofs.Order.Ascending
import RulePaths.Proofs.Order.Tables

/-!
# Numbers and the order of records do not show in the export

A store numbers nodes and edges and lists them in some order. The export has neither: it is the
same for any two snapshots that differ in the numbers and the order of their records only. Two
nodes must not get the same number, and an edge that ends nowhere must not get to end at a node.

The export takes the first record wherever several would do. So the snapshot must be unambiguous:
a number or a name belongs to one node, and a path has one lead. Edges are free otherwise. They may
be repeated, end nowhere or join nodes of any kinds.

## Main definitions

- `Snapshot.Unambiguous` — there is never more than one record to choose from
- `Snapshot.Renumbered` — a snapshot with other numbers and in another order

## Main results

- `Snapshot.Renumbered.keyOf?` — the ends of edges have the same keys under their new numbers
- `Snapshot.Renumbered.ruleEntry`, `Snapshot.Renumbered.pathEntry` — nodes have the same entries
- `Snapshot.toExport_renumbered` — the exports are equal
-/

namespace RulePaths

/-- The node under another number. -/
def NodeRecord.renumber (f : Nat → Nat) (n : NodeRecord) : NodeRecord :=
  { n with id := f n.id }

/-- The edge with other numbers at its ends, under another number itself. -/
def EdgeRecord.renumber (f g : Nat → Nat) (e : EdgeRecord) : EdgeRecord :=
  { e with id := g e.id, source := f e.source, target := f e.target }

namespace Snapshot

/-- A number or a name belongs to one node, and a path has one lead. -/
structure Unambiguous (s : Snapshot) : Prop where
  ids : (s.nodes.map NodeRecord.id).Nodup
  names : (s.nodes.map fun n => (n.kind, n.key)).Nodup
  leads : ∀ p ∈ s.nodesOf .path, (s.edgesInto .inPath p.id).length ≤ 1

/-- The numbers of nodes that a snapshot mentions, whether there are such nodes or not. -/
def mentioned (s : Snapshot) : List Nat :=
  s.nodes.map NodeRecord.id ++ s.edges.flatMap fun e => [e.source, e.target]

/-- A snapshot with the same records as another one, in any order, where `f` gives the numbers of
nodes, also those at the ends of edges, and `g` those of edges. No node gets the number that another
node or the dangling end of an edge gets. -/
structure Renumbered (f g : Nat → Nat) (s s' : Snapshot) : Prop where
  nodes : s'.nodes.Perm (s.nodes.map (NodeRecord.renumber f))
  edges : s'.edges.Perm (s.edges.map (EdgeRecord.renumber f g))
  separates : ∀ n ∈ s.nodes, ∀ i ∈ s.mentioned, f n.id = f i → n.id = i

theorem source_mem_mentioned {s : Snapshot} {e : EdgeRecord} (he : e ∈ s.edges) :
    e.source ∈ s.mentioned :=
  List.mem_append_right _ (List.mem_flatMap.2 ⟨e, he, by simp⟩)

theorem target_mem_mentioned {s : Snapshot} {e : EdgeRecord} (he : e ∈ s.edges) :
    e.target ∈ s.mentioned :=
  List.mem_append_right _ (List.mem_flatMap.2 ⟨e, he, by simp⟩)

/-- A number that belongs to one node finds this node. -/
theorem nodeById?_eq_some_iff_of_nodup {s : Snapshot} (h : (s.nodes.map NodeRecord.id).Nodup)
    {i : Nat} {n : NodeRecord} : s.nodeById? i = some n ↔ n ∈ s.nodes ∧ n.id = i :=
  find?_key_eq_some_iff NodeRecord.id h

/-- A node that has the kind and the key of another one is this node. -/
theorem Unambiguous.eq_of_key_eq {s : Snapshot} (h : s.Unambiguous) {kind : NodeKind}
    {m n : NodeRecord} (hm : m ∈ s.nodesOf kind) (hn : n ∈ s.nodesOf kind) (hkey : m.key = n.key) :
    m = n := by
  obtain ⟨hm, hmkind⟩ := List.mem_filter.1 hm
  obtain ⟨hn, hnkind⟩ := List.mem_filter.1 hn
  refine List.inj_on_of_nodup_map h.names hm hn ?_
  rw [beq_iff_eq.1 hmkind, beq_iff_eq.1 hnkind, hkey]

namespace Renumbered

variable {f g : Nat → Nat} {s s' : Snapshot} (h : Renumbered f g s s')
include h

theorem nodup_ids (hids : (s.nodes.map NodeRecord.id).Nodup) :
    (s'.nodes.map NodeRecord.id).Nodup := by
  have hperm : (s'.nodes.map NodeRecord.id).Perm ((s.nodes.map NodeRecord.id).map f) := by
    have := h.nodes.map NodeRecord.id
    rwa [List.map_map] at this ⊢
  rw [hperm.nodup_iff]
  refine hids.map_on fun i hi j hj heq => ?_
  obtain ⟨n, hn, rfl⟩ := List.mem_map.1 hi
  exact h.separates n hn j (List.mem_append_left _ hj) heq

/-- The new number of an end finds the node that the old number found, or none. -/
theorem nodeById? (hids : (s.nodes.map NodeRecord.id).Nodup) {i : Nat} (hi : i ∈ s.mentioned) :
    s'.nodeById? (f i) = (s.nodeById? i).map (NodeRecord.renumber f) := by
  apply Option.ext
  intro m
  rw [nodeById?_eq_some_iff_of_nodup (h.nodup_ids hids), h.nodes.mem_iff, List.mem_map,
    Option.map_eq_some_iff]
  constructor
  · rintro ⟨⟨n, hn, rfl⟩, hid⟩
    exact ⟨n, (nodeById?_eq_some_iff_of_nodup hids).2 ⟨hn, h.separates n hn i hi hid⟩, rfl⟩
  · rintro ⟨n, hfound, rfl⟩
    obtain ⟨hn, rfl⟩ := (nodeById?_eq_some_iff_of_nodup hids).1 hfound
    exact ⟨⟨n, hn, rfl⟩, rfl⟩

theorem keyOf? (hids : (s.nodes.map NodeRecord.id).Nodup) {i : Nat} (hi : i ∈ s.mentioned) :
    s'.keyOf? (f i) = s.keyOf? i := by
  rw [Snapshot.keyOf?, h.nodeById? hids hi, Option.map_map]
  rfl

/-! ### Edges at a node -/

/-- The edges of a kind with an end at a node have this end there under the new numbers. -/
theorem filter_edgesOf {n : NodeRecord} (hn : n ∈ s.nodes) (kind : EdgeKind)
    {endOf : EdgeRecord → Nat} (hrenumber : ∀ e, endOf (e.renumber f g) = f (endOf e))
    (hmentioned : ∀ e ∈ s.edges, endOf e ∈ s.mentioned) :
    ((s'.edgesOf kind).filter fun e => endOf e == f n.id).Perm
      (((s.edgesOf kind).filter fun e => endOf e == n.id).map (EdgeRecord.renumber f g)) := by
  refine ((h.edges.filter _).filter _).trans (.of_eq ?_)
  rw [edgesOf, List.filter_map, List.filter_map]
  refine congrArg (List.map (EdgeRecord.renumber f g)) (List.filter_congr fun e he => ?_)
  rw [Function.comp, hrenumber, Bool.eq_iff_iff, beq_iff_eq, beq_iff_eq]
  have he : e ∈ s.edges := List.mem_of_mem_filter he
  exact ⟨fun heq => (h.separates n hn _ (hmentioned e he) heq.symm).symm, congrArg f⟩

theorem edgesInto {n : NodeRecord} (hn : n ∈ s.nodes) (kind : EdgeKind) :
    (s'.edgesInto kind (f n.id)).Perm
      ((s.edgesInto kind n.id).map (EdgeRecord.renumber f g)) :=
  h.filter_edgesOf hn kind (fun _ => rfl) fun _ => target_mem_mentioned

theorem edgesOutOf {n : NodeRecord} (hn : n ∈ s.nodes) (kind : EdgeKind) :
    (s'.edgesOutOf kind (f n.id)).Perm
      ((s.edgesOutOf kind n.id).map (EdgeRecord.renumber f g)) :=
  h.filter_edgesOf hn kind (fun _ => rfl) fun _ => source_mem_mentioned

/-- The keys at the other ends of some edges are the same under the new numbers. -/
theorem filterMap_keyOf? (hids : (s.nodes.map NodeRecord.id).Nodup) (es : List EdgeRecord)
    (endOf : EdgeRecord → Nat) (hrenumber : ∀ e, endOf (e.renumber f g) = f (endOf e))
    (hmentioned : ∀ e ∈ es, endOf e ∈ s.mentioned) :
    (es.map (EdgeRecord.renumber f g)).filterMap (fun e => s'.keyOf? (endOf e)) =
      es.filterMap fun e => s.keyOf? (endOf e) := by
  rw [List.filterMap_map]
  refine List.filterMap_congr fun e he => ?_
  rw [Function.comp, hrenumber, h.keyOf? hids (hmentioned e he)]

/-! ### Entries -/

theorem ruleEntry (hids : (s.nodes.map NodeRecord.id).Nodup) {n : NodeRecord} (hn : n ∈ s.nodes) :
    s'.ruleEntry (n.renumber f) = s.ruleEntry n := by
  have hkeys := h.filterMap_keyOf? hids (s.edgesInto .hasRule n.id) EdgeRecord.source
    (fun _ => rfl) fun e he =>
      source_mem_mentioned (List.mem_of_mem_filter (List.mem_of_mem_filter he))
  rw [Snapshot.ruleEntry, Snapshot.ruleEntry, ← hkeys]
  congr 1
  exact ascending_eq_of_perm ((h.edgesInto hn .hasRule).filterMap _)

/-- The lead of a path is the source of its only edge, if it has one. -/
theorem findSome?_keyOf? (hids : (s.nodes.map NodeRecord.id).Nodup) {n : NodeRecord}
    (hn : n ∈ s.nodes) (hlead : (s.edgesInto .inPath n.id).length ≤ 1) :
    (s'.edgesInto .inPath (f n.id)).findSome? (fun e => s'.keyOf? e.source) =
      (s.edgesInto .inPath n.id).findSome? fun e => s.keyOf? e.source := by
  have hperm := h.edgesInto hn .inPath
  match hedges : s.edgesInto .inPath n.id with
  | [] =>
    rw [hedges] at hperm
    rw [List.perm_nil.1 hperm]
    rfl
  | [e] =>
    rw [hedges] at hperm
    have he : e ∈ s.edgesInto .inPath n.id := by simp [hedges]
    have he : e ∈ s.edges := List.mem_of_mem_filter (List.mem_of_mem_filter he)
    rw [List.perm_singleton.1 hperm, List.findSome?_singleton, List.findSome?_singleton]
    exact h.keyOf? hids (source_mem_mentioned he)
  | e :: e' :: es =>
    rw [hedges] at hlead
    simp at hlead

theorem pathEntry (hs : s.Unambiguous) {p : NodeRecord} (hp : p ∈ s.nodesOf .path) :
    s'.pathEntry (p.renumber f) = s.pathEntry p := by
  have hn : p ∈ s.nodes := List.mem_of_mem_filter hp
  have hkeys := h.filterMap_keyOf? hs.ids (s.edgesOutOf .hasRule p.id) EdgeRecord.target
    (fun _ => rfl) fun e he =>
      target_mem_mentioned (List.mem_of_mem_filter (List.mem_of_mem_filter he))
  rw [Snapshot.pathEntry, Snapshot.pathEntry, ← h.findSome?_keyOf? hs.ids hn (hs.leads p hp),
    ← hkeys]
  congr 1
  exact ascending_eq_of_perm ((h.edgesOutOf hn .hasRule).filterMap _)

/-! ### The export -/

/-- What the nodes of a kind are turned into is the same up to the order, if it is for each node. -/
theorem map_nodesOf {α : Type} {kind : NodeKind} {entry entry' : NodeRecord → α}
    (hentry : ∀ n ∈ s.nodesOf kind, entry' (n.renumber f) = entry n) :
    ((s'.nodesOf kind).map entry').Perm ((s.nodesOf kind).map entry) := by
  refine ((h.nodes.filter _).map entry').trans (.of_eq ?_)
  rw [List.filter_map, List.map_map]
  exact List.map_congr_left hentry

/-- Entries that have the keys of their nodes are sorted to the same list. -/
theorem mergeSort_nodesOf (hs : s.Unambiguous) {α : Type} (kind : NodeKind) (key : α → String)
    {entry entry' : NodeRecord → α}
    (hentry : ∀ n ∈ s.nodesOf kind, entry' (n.renumber f) = entry n)
    (hkey : ∀ n, key (entry n) = n.key) :
    ((s'.nodesOf kind).map entry').mergeSort (fun a b => (compare (key a) (key b)).isLE) =
      ((s.nodesOf kind).map entry).mergeSort fun a b => (compare (key a) (key b)).isLE := by
  have hperm := h.map_nodesOf hentry
  refine (mergeSort_eq_of_perm hperm.symm fun a ha b hb heq => ?_).symm
  obtain ⟨m, hm, rfl⟩ := List.mem_map.1 ha
  obtain ⟨n, hn, rfl⟩ := List.mem_map.1 hb
  rw [hkey, hkey] at heq
  rw [hs.eq_of_key_eq hm hn heq]

end Renumbered

/-- The export does not tell which numbers a store gave to nodes and edges, nor in which order it
lists them. -/
theorem toExport_renumbered {f g : Nat → Nat} {s s' : Snapshot} (h : Renumbered f g s s')
    (hs : s.Unambiguous) : s'.toExport = s.toExport := by
  have hrules := h.mergeSort_nodesOf hs .rule RuleEntry.id
    (fun n hn => h.ruleEntry hs.ids (List.mem_of_mem_filter hn)) fun _ => rfl
  have hpaths := h.mergeSort_nodesOf hs .path PathEntry.id
    (fun p hp => h.pathEntry hs hp) fun _ => rfl
  have hattributes : sortTexts ((s'.nodesOf .attr).map NodeRecord.key) =
      sortTexts ((s.nodesOf .attr).map NodeRecord.key) :=
    ascending_eq_of_perm (h.map_nodesOf fun _ _ => rfl)
  rw [toExport, toExport, hrules, hpaths, hattributes]

/-- Two parallel edges lead to the rule `r`, and another edge to it starts at no node. The new
numbers exchange those of the path and the rule, and both lists are turned round. -/
theorem toExport_renumbered_dangling :
    let s : Snapshot :=
      ⟨[.new 0 .rule "r", .new 1 .path "0&2", .new 2 .attr "0", .new 3 .attr "2"],
        [.new 0 .inPath 2 1, .new 1 .hasRule 1 0, .new 2 .hasRule 1 0, .new 3 .hasRule 9 0]⟩
    let s' : Snapshot :=
      ⟨[.new 3 .attr "2", .new 2 .attr "0", .new 0 .path "0&2", .new 1 .rule "r"],
        [.new 3 .hasRule 7 1, .new 2 .hasRule 0 1, .new 1 .hasRule 0 1, .new 0 .inPath 2 0]⟩
    let f := fun i => if i = 9 then 7 else if i = 0 then 1 else if i = 1 then 0 else i
    s.Unambiguous ∧ Renumbered f id s s' ∧ s'.toExport = s.toExport := by
  intro s s' f
  have hs : s.Unambiguous := ⟨by decide, by decide, by decide⟩
  have h : Renumbered f id s s' := ⟨by decide, by decide, by decide⟩
  exact ⟨hs, h, toExport_renumbered h hs⟩

end Snapshot

end RulePaths
