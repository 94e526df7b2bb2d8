import RulePaths.Proofs.Graph.Reference

/-!
# How large a graph gets

The size of a graph is how many bytes its records take when they are written. A call of a
transaction adds no more than a number of bytes that can be told from the call alone, and a graph
of less than `2 ^ 64` bytes is storable. So what a transaction asks for says beforehand that there
will be room for it.

## Main definitions

- `Snapshot.size` — how many bytes the records of a graph take
- `TxnCall.size` — how many bytes a call can add

## Main results

- `Snapshot.Step.size_le` — what a call adds
- `Snapshot.storable_of_size_lt` — small graphs can be stored
-/

namespace RulePaths

open RecordBytes

section Sums

variable {κ ν α : Type} [Ord κ]

theorem sum_insertEntry_le (size : κ × ν → Nat) (k : κ) (v : ν) (es : List (κ × ν)) :
    ((Table.insertEntry k v es).map size).sum ≤ (es.map size).sum + size (k, v) := by
  induction es with
  | nil => simp [Table.insertEntry]
  | cons e es ih =>
    rw [Table.insertEntry]
    split <;> simp only [List.map_cons, List.sum_cons] <;> omega

/-- One value of a list grows by no more than `c`. -/
theorem sum_modify_le (size : α → Nat) {f : α → α} {c : Nat} (hf : ∀ a, size (f a) ≤ size a + c)
    (as : List α) (i : Nat) : ((as.modify i f).map size).sum ≤ (as.map size).sum + c := by
  induction as generalizing i with
  | nil => simp
  | cons a as ih =>
    cases i with
    | zero =>
      have := hf a
      simp only [List.modify_zero_cons, List.map_cons, List.sum_cons]
      omega
    | succ i =>
      have := ih i
      simp only [List.modify_succ_cons, List.map_cons, List.sum_cons]
      omega

end Sums

/-! ### Records -/

theorem length_writeProperties_empty : (writeProperties .empty).length = 8 := by
  rw [length_writeProperties_eq]
  rfl

theorem length_writeProperties_insert_le (ps : Properties) (name value : String) :
    (writeProperties (ps.insert name value)).length ≤
      (writeProperties ps).length + entrySize (name, value) := by
  have := sum_insertEntry_le entrySize name value ps.entries
  simp only [length_writeProperties_eq, Table.insert]
  omega

theorem length_encodeNode_setProperty_le (name value : String) (n : NodeRecord) :
    (encodeNode (n.setProperty name value)).length ≤
      (encodeNode n).length + entrySize (name, value) := by
  have := length_writeProperties_insert_le n.properties name value
  simp only [length_encodeNode, NodeRecord.setProperty]
  omega

theorem length_encodeEdge_setProperty_le (name value : String) (e : EdgeRecord) :
    (encodeEdge (e.setProperty name value)).length ≤
      (encodeEdge e).length + entrySize (name, value) := by
  have := length_writeProperties_insert_le e.properties name value
  simp only [length_encodeEdge, EdgeRecord.setProperty]
  omega

/-! ### Graphs -/

/-- How many bytes a call of a transaction can add to the graph. -/
def TxnCall.size : TxnCall → Nat
  | .find .. => 0
  | .create _ key => 28 + key.utf8ByteSize
  | .setNode _ name value => entrySize (name, value)
  | .link .. => 36
  | .setEdge _ name value => entrySize (name, value)

namespace Snapshot

/-- How many bytes the records of a graph take. -/
def size (g : Snapshot) : Nat :=
  (g.nodes.map fun n => (encodeNode n).length).sum +
    (g.edges.map fun e => (encodeEdge e).length).sum

variable {base g h : Snapshot} {c : TxnCall}

theorem Step.size_le {a : c.Answer} (hstep : Step base g c a h) : h.size ≤ g.size + c.size := by
  cases hstep with
  | find => exact Nat.le_add_right _ _
  | create =>
    simp only [size, nodes_addNode, edges_addNode, List.map_append, List.sum_append,
      List.map_singleton, List.sum_singleton, length_encodeNode, length_writeProperties_empty,
      TxnCall.size]
    omega
  | @setNode _ id _ name value =>
    have := sum_modify_le (fun n => (encodeNode n).length)
      (length_encodeNode_setProperty_le name value) g.nodes id
    simp only [size, Snapshot.setNode, TxnCall.size]
    omega
  | link =>
    simp only [size, nodes_addEdge, edges_addEdge, List.map_append, List.sum_append,
      List.map_singleton, List.sum_singleton, length_encodeEdge, length_writeProperties_empty,
      TxnCall.size]
    omega
  | @setEdge edge _ _ name value =>
    have := sum_modify_le (fun e => (encodeEdge e).length)
      (length_encodeEdge_setProperty_le name value) g.edges edge
    simp only [size, Snapshot.setEdge, TxnCall.size]
    omega

/-- There are no more records than bytes, and none is longer than all of them. -/
theorem storable_of_size_lt (hsize : g.size < 2 ^ 64) : g.Storable := by
  have hnodes : (g.nodes.map fun n => (encodeNode n).length).length ≤
      (g.nodes.map fun n => (encodeNode n).length).sum := by
    apply List.length_le_sum_of_one_le
    simp only [List.mem_map, length_encodeNode]
    rintro _ ⟨n, _, rfl⟩
    omega
  have hedges : (g.edges.map fun e => (encodeEdge e).length).length ≤
      (g.edges.map fun e => (encodeEdge e).length).sum := by
    apply List.length_le_sum_of_one_le
    simp only [List.mem_map, length_encodeEdge]
    rintro _ ⟨e, _, rfl⟩
    omega
  rw [List.length_map] at hnodes hedges
  rw [size] at hsize
  exact {
    nodes := by omega
    edges := by omega
    node := fun n hn => by
      have : (encodeNode n).length ≤ (g.nodes.map fun n => (encodeNode n).length).sum :=
        List.le_sum_of_mem (List.mem_map_of_mem hn)
      omega
    edge := fun e he => by
      have : (encodeEdge e).length ≤ (g.edges.map fun e => (encodeEdge e).length).sum :=
        List.le_sum_of_mem (List.mem_map_of_mem he)
      omega }

end Snapshot

end RulePaths
