import RulePaths.Graph.TablesFile
import RulePaths.Proofs.Order.Tables
import Mathlib.Algebra.GroupWithZero.Nat
import Mathlib.Algebra.Order.BigOperators.Group.List
import Mathlib.Algebra.Order.Group.Nat

/-!
# Reading back what was written

Numbers, texts, records and whole tables are read back from their bytes, whatever follows them.
The one condition is that numbers and lengths fit into the bytes that are given to them. The
lengths in a record do if it has fewer than `2 ^ 64` bytes in all.

## Main definitions

- `Reads` — a reader takes a value off its bytes and leaves what follows
- `NodeRecord.Fits`, `EdgeRecord.Fits` — the numbers and lengths in a record have 64 bits

## Main results

- `decodeNode?_encodeNode`, `decodeEdge?_encodeEdge` — records are read back
- `TablesFile.decode?_encode` — the tables of a file are read back
-/

namespace RulePaths

/-- The reader takes `x` off the bytes that `bytes` stands in front of, and leaves the others. -/
def Reads {α : Type} (read : ByteReader α) (bytes : Bytes) (x : α) : Prop :=
  ∀ rest, read (bytes ++ rest) = some (x, rest)

/-- The lengths in some properties have 64 bits. -/
structure Properties.Fits (ps : Properties) : Prop where
  count : ps.entries.length < 2 ^ 64
  texts : ∀ e ∈ ps.entries, e.1.utf8ByteSize < 2 ^ 64 ∧ e.2.utf8ByteSize < 2 ^ 64

/-- The number of a node and the lengths in its record have 64 bits. -/
structure NodeRecord.Fits (n : NodeRecord) : Prop where
  id : n.id < 2 ^ 64
  key : n.key.utf8ByteSize < 2 ^ 64
  properties : Properties.Fits n.properties

/-- The numbers in the record of an edge and its lengths have 64 bits. -/
structure EdgeRecord.Fits (e : EdgeRecord) : Prop where
  id : e.id < 2 ^ 64
  source : e.source < 2 ^ 64
  target : e.target < 2 ^ 64
  properties : Properties.Fits e.properties

namespace RecordBytes

/-! ### Numbers and texts -/

@[simp] theorem length_writeNumber (width n : Nat) : (writeNumber width n).length = width := by
  induction width generalizing n with
  | zero => rfl
  | succ width ih => simp [writeNumber, ih]

theorem reads_number {width n : Nat} (h : n < 256 ^ width) :
    Reads (readNumber width) (writeNumber width n) n := by
  intro rest
  induction width generalizing n with
  | zero =>
    obtain rfl : n = 0 := by simpa using h
    rfl
  | succ width ih =>
    have hdiv : n / 256 < 256 ^ width := by
      rw [Nat.pow_succ] at h
      exact Nat.div_lt_of_lt_mul (by omega)
    have hbyte : (UInt8.ofNat n).toNat = n % 256 := by simp
    simp only [writeNumber, List.cons_append, readNumber, ih hdiv, Option.bind_eq_bind,
      Option.bind_some, Option.pure_def, hbyte, Nat.mod_add_div]

theorem reads_number64 {n : Nat} (h : n < 2 ^ 64) : Reads (readNumber 8) (writeNumber 8 n) n :=
  reads_number (by omega)

@[simp] theorem length_utf8 (s : String) : (utf8 s).length = s.utf8ByteSize :=
  Array.length_toList

theorem ofUtf8?_utf8 (s : String) : ofUtf8? (utf8 s) = some s := by
  have hbytes : (⟨(utf8 s).toArray⟩ : ByteArray) = s.toByteArray := by
    simp [utf8, String.toUTF8]
  rw [ofUtf8?, hbytes, String.fromUTF8?, dif_pos s.isValidUTF8]
  rfl

@[simp] theorem length_writeText (s : String) : (writeText s).length = 8 + s.utf8ByteSize := by
  simp [writeText]

theorem reads_text {s : String} (h : s.utf8ByteSize < 2 ^ 64) :
    Reads readText (writeText s) s := by
  intro rest
  rw [writeText, List.append_assoc, readText, reads_number64 h]
  have hle : s.utf8ByteSize ≤ (utf8 s ++ rest).length := by simp
  have htake : (utf8 s ++ rest).take s.utf8ByteSize = utf8 s :=
    List.take_left' (length_utf8 s)
  have hdrop : (utf8 s ++ rest).drop s.utf8ByteSize = rest :=
    List.drop_left' (length_utf8 s)
  simp only [Option.bind_eq_bind, Option.bind_some, if_pos hle, htake, hdrop, ofUtf8?_utf8,
    Option.pure_def]

/-! ### Entries and tables -/

theorem readEntries_eq : readEntries = TablesFile.readEntries readText readText := by
  funext n
  induction n with
  | zero => rfl
  | succ n ih =>
    funext bytes
    rw [readEntries, TablesFile.readEntries, ih]

theorem reads_entries {κ ν : Type} {readKey : ByteReader κ} {readValue : ByteReader ν}
    {key : κ → Bytes} {value : ν → Bytes} {es : List (κ × ν)}
    (hkey : ∀ e ∈ es, Reads readKey (key e.1) e.1)
    (hvalue : ∀ e ∈ es, Reads readValue (value e.2) e.2) :
    Reads (TablesFile.readEntries readKey readValue es.length)
      (es.flatMap fun e => key e.1 ++ value e.2) es := by
  intro rest
  induction es with
  | nil => rfl
  | cons e es ih =>
    have hrest := ih (fun x hx => hkey x (List.mem_cons_of_mem e hx))
      (fun x hx => hvalue x (List.mem_cons_of_mem e hx))
    rw [List.flatMap_cons, List.append_assoc, List.append_assoc, List.length_cons,
      TablesFile.readEntries, hkey e List.mem_cons_self]
    simp only [Option.bind_eq_bind, Option.bind_some, hvalue e List.mem_cons_self _, hrest,
      Option.pure_def]

theorem reads_table {κ ν : Type} [Ord κ] [Std.TransOrd κ] {readKey : ByteReader κ}
    {readValue : ByteReader ν} {key : κ → Bytes} {value : ν → Bytes} {t : Table κ ν}
    (hcount : t.entries.length < 2 ^ 64)
    (hkey : ∀ e ∈ t.entries, Reads readKey (key e.1) e.1)
    (hvalue : ∀ e ∈ t.entries, Reads readValue (value e.2) e.2) :
    Reads (TablesFile.readTable readKey readValue) (TablesFile.writeTable key value t) t := by
  intro rest
  rw [TablesFile.writeTable, List.append_assoc, TablesFile.readTable, reads_number64 hcount]
  have hentries := reads_entries hkey hvalue rest
  simp only [Option.bind_eq_bind, Option.bind_some, hentries, Option.pure_def,
    Table.ofList_entries]

theorem writeProperties_eq (ps : Properties) :
    writeProperties ps = TablesFile.writeTable writeText writeText ps :=
  rfl

theorem readProperties_eq : readProperties = TablesFile.readTable readText readText := by
  funext bytes
  rw [readProperties, TablesFile.readTable, readEntries_eq]

/-- How many bytes a name and its value take. -/
def entrySize (e : String × String) : Nat :=
  16 + e.1.utf8ByteSize + e.2.utf8ByteSize

theorem length_writeProperties_eq (ps : Properties) :
    (writeProperties ps).length = 8 + (ps.entries.map entrySize).sum := by
  simp only [writeProperties, List.length_append, length_writeNumber, List.length_flatMap,
    length_writeText]
  congr 2
  exact List.map_congr_left fun e _ => by simp only [entrySize]; omega

/-- Properties are no shorter than the texts in them and than their number. -/
theorem length_writeProperties (ps : Properties) :
    ps.entries.length ≤ (writeProperties ps).length ∧
      ∀ e ∈ ps.entries, e.1.utf8ByteSize < (writeProperties ps).length ∧
        e.2.utf8ByteSize < (writeProperties ps).length := by
  rw [length_writeProperties_eq]
  constructor
  · have hcount : (ps.entries.map entrySize).length ≤ (ps.entries.map entrySize).sum := by
      apply List.length_le_sum_of_one_le
      simp only [List.mem_map, entrySize]
      rintro _ ⟨e, _, rfl⟩
      omega
    rw [List.length_map] at hcount
    omega
  · intro e he
    have hentry : entrySize e ≤ (ps.entries.map entrySize).sum :=
      List.le_sum_of_mem (List.mem_map_of_mem he)
    simp only [entrySize] at hentry ⊢
    omega

theorem fits_properties_of_length {ps : Properties} (h : (writeProperties ps).length < 2 ^ 64) :
    Properties.Fits ps := by
  obtain ⟨hcount, htexts⟩ := length_writeProperties ps
  exact ⟨by omega, fun e he =>
    ⟨Nat.lt_trans (htexts e he).1 h, Nat.lt_trans (htexts e he).2 h⟩⟩

theorem reads_properties {ps : Properties} (h : Properties.Fits ps) :
    Reads readProperties (writeProperties ps) ps := by
  rw [readProperties_eq, writeProperties_eq]
  exact reads_table h.count (fun e he => reads_text (h.texts e he).1)
    fun e he => reads_text (h.texts e he).2

/-! ### Records -/

theorem nodeKindOfNumber?_nodeKindNumber (kind : NodeKind) :
    nodeKindOfNumber? (nodeKindNumber kind) = some kind := by
  cases kind <;> rfl

theorem edgeKindOfNumber?_edgeKindNumber (kind : EdgeKind) :
    edgeKindOfNumber? (edgeKindNumber kind) = some kind := by
  cases kind <;> rfl

theorem length_encodeNode (n : NodeRecord) :
    (encodeNode n).length = 20 + n.key.utf8ByteSize + (writeProperties n.properties).length := by
  simp only [encodeNode, List.length_append, length_writeNumber, length_writeText]
  omega

theorem length_encodeEdge (e : EdgeRecord) :
    (encodeEdge e).length = 28 + (writeProperties e.properties).length := by
  simp only [encodeEdge, List.length_append, length_writeNumber]

theorem fits_node_of_length {n : NodeRecord} (hid : n.id < 2 ^ 64)
    (hsize : (encodeNode n).length < 2 ^ 64) : n.Fits := by
  rw [length_encodeNode] at hsize
  exact ⟨hid, by omega, fits_properties_of_length (by omega)⟩

theorem fits_edge_of_length {e : EdgeRecord} (hid : e.id < 2 ^ 64) (hsource : e.source < 2 ^ 64)
    (htarget : e.target < 2 ^ 64) (hsize : (encodeEdge e).length < 2 ^ 64) : e.Fits := by
  rw [length_encodeEdge] at hsize
  exact ⟨hid, hsource, htarget, fits_properties_of_length (by omega)⟩

theorem reads_node {n : NodeRecord} (h : n.Fits) : Reads readNode (encodeNode n) n := by
  intro rest
  have hkind : Reads (readNumber 4) (writeNumber 4 (nodeKindNumber n.kind))
      (nodeKindNumber n.kind) := reads_number (by cases n.kind <;> decide)
  simp only [encodeNode, List.append_assoc, readNode, reads_number64 h.id _, hkind _,
    reads_text h.key _, reads_properties h.properties _, nodeKindOfNumber?_nodeKindNumber,
    Option.bind_eq_bind, Option.bind_some, Option.pure_def]

theorem reads_edge {e : EdgeRecord} (h : e.Fits) : Reads readEdge (encodeEdge e) e := by
  intro rest
  have hkind : Reads (readNumber 4) (writeNumber 4 (edgeKindNumber e.kind))
      (edgeKindNumber e.kind) := reads_number (by cases e.kind <;> decide)
  simp only [encodeEdge, List.append_assoc, readEdge, reads_number64 h.id _, hkind _,
    reads_number64 h.source _, reads_number64 h.target _, reads_properties h.properties _,
    edgeKindOfNumber?_edgeKindNumber, Option.bind_eq_bind, Option.bind_some, Option.pure_def]

theorem decodeNode?_encodeNode {n : NodeRecord} (hid : n.id < 2 ^ 64)
    (hsize : (encodeNode n).length < 2 ^ 64) (rest : Bytes) :
    decodeNode? (encodeNode n ++ rest) = some n := by
  rw [decodeNode?, reads_node (fits_node_of_length hid hsize) rest]
  rfl

theorem decodeEdge?_encodeEdge {e : EdgeRecord} (hid : e.id < 2 ^ 64)
    (hsource : e.source < 2 ^ 64) (htarget : e.target < 2 ^ 64)
    (hsize : (encodeEdge e).length < 2 ^ 64) (rest : Bytes) :
    decodeEdge? (encodeEdge e ++ rest) = some e := by
  rw [decodeEdge?, reads_edge (fits_edge_of_length hid hsource htarget hsize) rest]
  rfl

end RecordBytes

namespace TablesFile

open RecordBytes

theorem reads_blob {bytes : Bytes} (h : bytes.length < 2 ^ 64) :
    Reads readBlob (writeBlob bytes) bytes := by
  intro rest
  rw [writeBlob, List.append_assoc, readBlob, reads_number64 h]
  have hle : bytes.length ≤ (bytes ++ rest).length := by simp
  simp only [Option.bind_eq_bind, Option.bind_some, if_pos hle, List.take_left, List.drop_left,
    Option.pure_def]

/-- Numbers, lengths and the numbers of entries of some tables fit into 64 bits. -/
structure Fits (t : Tables) : Prop where
  nodes : t.nodes.entries.length < 2 ^ 64
  node : ∀ e ∈ t.nodes.entries, e.1.utf8ByteSize < 2 ^ 64 ∧ e.2.length < 2 ^ 64
  nodeKeys : t.nodeKeys.entries.length < 2 ^ 64
  nodeKey : ∀ e ∈ t.nodeKeys.entries, e.1 < 2 ^ 64 ∧ e.2.utf8ByteSize < 2 ^ 64
  edges : t.edges.entries.length < 2 ^ 64
  edge : ∀ e ∈ t.edges.entries, e.1 < 2 ^ 64 ∧ e.2.length < 2 ^ 64
  counters : t.counters.entries.length < 2 ^ 64
  counter : ∀ e ∈ t.counters.entries, e.1.utf8ByteSize < 2 ^ 64 ∧ e.2 < 2 ^ 64

/-- Tables that fit are read back from the file that was written for them. -/
theorem decode?_encode {t : Tables} (h : Fits t) : decode? (encode t) = some t := by
  have hnodes : Reads (readTable readText readBlob) (writeTable writeText writeBlob t.nodes)
      t.nodes :=
    reads_table h.nodes (fun e he => reads_text (h.node e he).1)
      fun e he => reads_blob (h.node e he).2
  have hnodeKeys : Reads (readTable (readNumber 8) readText)
      (writeTable (writeNumber 8) writeText t.nodeKeys) t.nodeKeys :=
    reads_table h.nodeKeys (fun e he => reads_number64 (h.nodeKey e he).1)
      fun e he => reads_text (h.nodeKey e he).2
  have hedges : Reads (readTable (readNumber 8) readBlob)
      (writeTable (writeNumber 8) writeBlob t.edges) t.edges :=
    reads_table h.edges (fun e he => reads_number64 (h.edge e he).1)
      fun e he => reads_blob (h.edge e he).2
  have hcounters : Reads (readTable readText (readNumber 8))
      (writeTable writeText (writeNumber 8) t.counters) t.counters :=
    reads_table h.counters (fun e he => reads_text (h.counter e he).1)
      fun e he => reads_number64 (h.counter e he).2
  have hne : encode t ≠ [] := by simp [encode, mark]
  have htake : (encode t).take mark.length = mark := by
    simp only [encode, List.append_assoc, List.take_left]
  have hdrop : (encode t).drop mark.length =
      writeTable writeText writeBlob t.nodes ++ (writeTable (writeNumber 8) writeText t.nodeKeys ++
        (writeTable (writeNumber 8) writeBlob t.edges ++
          (writeTable writeText (writeNumber 8) t.counters ++ []))) := by
    simp only [encode, List.append_assoc, List.drop_left, List.append_nil]
  rw [decode?, if_neg hne, if_neg (by simp [htake]), hdrop, hnodes _]
  simp only [Option.bind_eq_bind, Option.bind_some, hnodeKeys _, hedges _, hcounters _, if_true]

end TablesFile

end RulePaths
