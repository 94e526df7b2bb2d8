import RulePaths.Graph.TableStore
import RulePaths.Proofs.Graph.RecordBytes

/-!
# Records are told from their bytes

A reader that takes a value off some bytes takes the same value off them when more bytes follow.
So bytes that are cut off before the end of a record make no record at all: what a reader would
make of them it would also make of the whole, and there it leaves nothing. With the reading back of
records this says that no record is written as another one or as the start of another one.

## Main definitions

- `Steady` — what a reader takes off some bytes does not depend on what follows them
- `IsFormat` — records are read back, told apart and not made of less than all their bytes

## Main results

- `Reads.eq_none_of_cut` — a steady reader makes nothing of bytes that were cut off
- `Tables.records_isFormat` — the bytes of nodes and of edges are such a format
-/

namespace RulePaths

/-- What the reader takes off some bytes it takes off them whatever else follows. -/
def Steady {α : Type} (read : ByteReader α) : Prop :=
  ∀ {bytes x rest}, read bytes = some (x, rest) →
    ∀ more, read (bytes ++ more) = some (x, rest ++ more)

/-- The start of what is written for a value, without its end, is no value. -/
theorem Reads.eq_none_of_cut {α : Type} {read : ByteReader α} {bytes start : Bytes} {x : α}
    (h : Reads read bytes x) (hread : Steady read) (hstart : start <+: bytes)
    (hne : start ≠ bytes) : read start = none := by
  obtain ⟨more, rfl⟩ := hstart
  cases hvalue : read start with
  | none => rfl
  | some value =>
    obtain ⟨y, rest⟩ := value
    have hwhole : read (start ++ more) = some (x, []) := by simpa using h []
    have hrest : rest ++ more = [] := by
      have := (hread hvalue more).symm.trans hwhole
      exact (Prod.mk.inj (Option.some.inj this)).2
    obtain rfl : more = [] := (List.append_eq_nil_iff.1 hrest).2
    exact absurd (List.append_nil start).symm hne

/-- Values whose bytes start other bytes in the same way are the same. -/
theorem Reads.eq_of_append_eq {α : Type} {read : ByteReader α} {bytes bytes' rest rest' : Bytes}
    {x y : α} (hx : Reads read bytes x) (hy : Reads read bytes' y)
    (heq : bytes ++ rest = bytes' ++ rest') : x = y ∧ rest = rest' := by
  have hboth := (hx rest).symm.trans ((congrArg read heq).trans (hy rest'))
  exact Prod.mk.inj (Option.some.inj hboth)

namespace RecordBytes

/-! ### Steady readers -/

theorem steady_number (width : Nat) : Steady (readNumber width) := by
  induction width with
  | zero =>
    intro bytes n rest h more
    obtain ⟨rfl, rfl⟩ := Prod.mk.inj (Option.some.inj h)
    rfl
  | succ width ih =>
    intro bytes n rest h more
    cases bytes with
    | nil => cases h
    | cons b bytes =>
      simp only [readNumber, Option.bind_eq_bind, Option.bind_eq_some_iff, Prod.exists,
        Option.pure_def, Option.some.injEq, Prod.mk.injEq] at h
      obtain ⟨m, rest, hm, rfl, rfl⟩ := h
      simp only [List.cons_append, readNumber, ih hm more, Option.bind_eq_bind, Option.bind_some,
        Option.pure_def]

theorem steady_text : Steady readText := by
  intro bytes s rest h more
  simp only [readText, Option.bind_eq_bind, Option.bind_eq_some_iff, Prod.exists] at h
  obtain ⟨length, tail, hlength, h⟩ := h
  split at h
  · next hle =>
    simp only [Option.bind_eq_some_iff, Option.pure_def, Option.some.injEq, Prod.mk.injEq] at h
    obtain ⟨t, ht, rfl, rfl⟩ := h
    have hle' : length ≤ (tail ++ more).length := by
      rw [List.length_append]
      omega
    simp only [readText, steady_number 8 hlength more, Option.bind_eq_bind, Option.bind_some,
      if_pos hle', List.take_append_of_le_length hle, ht, List.drop_append_of_le_length hle,
      Option.pure_def]
  · cases h

section

variable {κ ν : Type} {readKey : ByteReader κ} {readValue : ByteReader ν}
variable (hkey : Steady readKey) (hvalue : Steady readValue)
include hkey hvalue

theorem steady_entries (count : Nat) :
    Steady (TablesFile.readEntries readKey readValue count) := by
  induction count with
  | zero =>
    intro bytes es rest h more
    obtain ⟨rfl, rfl⟩ := Prod.mk.inj (Option.some.inj h)
    rfl
  | succ count ih =>
    intro bytes es rest h more
    simp only [TablesFile.readEntries, Option.bind_eq_bind, Option.bind_eq_some_iff, Prod.exists,
      Option.pure_def, Option.some.injEq, Prod.mk.injEq] at h
    obtain ⟨k, rest₁, hk, v, rest₂, hv, es, rest₃, hes, rfl, rfl⟩ := h
    simp only [TablesFile.readEntries, hkey hk more, hvalue hv more, ih hes more,
      Option.bind_eq_bind, Option.bind_some, Option.pure_def]

theorem steady_table [Ord κ] [Std.TransOrd κ] :
    Steady (TablesFile.readTable readKey readValue) := by
  intro bytes t rest h more
  simp only [TablesFile.readTable, Option.bind_eq_bind, Option.bind_eq_some_iff, Prod.exists,
    Option.pure_def, Option.some.injEq, Prod.mk.injEq] at h
  obtain ⟨count, rest₁, hcount, es, rest₂, hes, rfl, rfl⟩ := h
  simp only [TablesFile.readTable, steady_number 8 hcount more,
    steady_entries hkey hvalue count hes more, Option.bind_eq_bind, Option.bind_some,
    Option.pure_def]

end

theorem steady_properties : Steady readProperties :=
  readProperties_eq ▸ steady_table steady_text steady_text

theorem steady_node : Steady readNode := by
  intro bytes n rest h more
  simp only [readNode, Option.bind_eq_bind, Option.bind_eq_some_iff, Prod.exists, Option.pure_def,
    Option.some.injEq, Prod.mk.injEq] at h
  obtain ⟨id, rest₁, hid, number, rest₂, hnumber, kind, hkind, key, rest₃, hkey, properties, rest₄,
    hproperties, rfl, rfl⟩ := h
  simp only [readNode, steady_number 8 hid more, steady_number 4 hnumber more, hkind,
    steady_text hkey more, steady_properties hproperties more, Option.bind_eq_bind,
    Option.bind_some, Option.pure_def]

theorem steady_edge : Steady readEdge := by
  intro bytes e rest h more
  simp only [readEdge, Option.bind_eq_bind, Option.bind_eq_some_iff, Prod.exists, Option.pure_def,
    Option.some.injEq, Prod.mk.injEq] at h
  obtain ⟨id, rest₁, hid, number, rest₂, hnumber, kind, hkind, source, rest₃, hsource, target,
    rest₄, htarget, properties, rest₅, hproperties, rfl, rfl⟩ := h
  simp only [readEdge, steady_number 8 hid more, steady_number 4 hnumber more, hkind,
    steady_number 8 hsource more, steady_number 8 htarget more,
    steady_properties hproperties more, Option.bind_eq_bind, Option.bind_some, Option.pure_def]

end RecordBytes

/-! ### The formats of records -/

/-- Records of a kind, as far as they fit into their bytes, are read back from the bytes that are
written for them, whatever follows. Different ones are written differently, and what is left of
the bytes when their end is cut off fails as malformed. -/
structure IsFormat {α : Type} (fits : α → Prop) (write : α → Bytes)
    (read : Bytes → Except StoreError α) : Prop where
  read_append : ∀ r, fits r → ∀ rest, read (write r ++ rest) = .ok r
  injective : ∀ r, fits r → ∀ r', fits r' → write r = write r' → r = r'
  read_cut : ∀ r, fits r → ∀ start, start <+: write r → start ≠ write r →
    ∃ reason, read start = .error (.malformedRecord reason)

/-- What a steady reader reads back makes a format, if what it takes off the front of some bytes is
what they are read as, and bytes off which it takes nothing are malformed. -/
theorem IsFormat.of_reads {α : Type} {fits : α → Prop} {write : α → Bytes}
    {take : ByteReader α} {read : Bytes → Except StoreError α}
    (htake : ∀ r, fits r → Reads take (write r) r) (hsteady : Steady take)
    (hsome : ∀ {bytes r rest}, take bytes = some (r, rest) → read bytes = .ok r)
    (hnone : ∀ {bytes}, take bytes = none → ∃ reason, read bytes = .error (.malformedRecord reason)) :
    IsFormat fits write read where
  read_append r hr rest := hsome (htake r hr rest)
  injective r hr r' hr' heq :=
    ((htake r hr).eq_of_append_eq (htake r' hr') (congrArg (· ++ []) heq)).1
  read_cut r hr _ hstart hne := hnone ((htake r hr).eq_none_of_cut hsteady hstart hne)

namespace Tables

open RecordBytes

theorem readNode_of_some {bytes rest : Bytes} {n : NodeRecord}
    (h : RecordBytes.readNode bytes = some (n, rest)) : readNode bytes = .ok n := by
  rw [readNode, decodeNode?, h]
  rfl

theorem readNode_of_none {bytes : Bytes} (h : RecordBytes.readNode bytes = none) :
    ∃ reason, readNode bytes = .error (.malformedRecord reason) := by
  rw [readNode, decodeNode?, h]
  exact ⟨_, rfl⟩

theorem readEdge_of_some {bytes rest : Bytes} {e : EdgeRecord}
    (h : RecordBytes.readEdge bytes = some (e, rest)) : readEdge bytes = .ok e := by
  rw [readEdge, decodeEdge?, h]
  rfl

theorem readEdge_of_none {bytes : Bytes} (h : RecordBytes.readEdge bytes = none) :
    ∃ reason, readEdge bytes = .error (.malformedRecord reason) := by
  rw [readEdge, decodeEdge?, h]
  exact ⟨_, rfl⟩

/-- The bytes of nodes and the bytes of edges each make a format. -/
theorem records_isFormat :
    IsFormat NodeRecord.Fits encodeNode readNode ∧ IsFormat EdgeRecord.Fits encodeEdge readEdge :=
  ⟨.of_reads (fun _ => reads_node) steady_node readNode_of_some readNode_of_none,
    .of_reads (fun _ => reads_edge) steady_edge readEdge_of_some readEdge_of_none⟩

/-- A rule whose id has a letter of two bytes, with its formula, and an edge between the nodes with
the first and the last number. -/
theorem records_isFormat_cut :
    let n : NodeRecord := ⟨7, .rule, "é", ⟨[("formula", "0&1")], List.pairwise_singleton ..⟩⟩
    let e : EdgeRecord := ⟨0, .hasRule, 0, 2 ^ 64 - 1, .empty⟩
    n.Fits ∧ e.Fits ∧ readNode (encodeNode n ++ [1, 2, 3]) = .ok n ∧
      (∃ reason, readNode (encodeNode n).dropLast = .error (.malformedRecord reason)) ∧
      readEdge (encodeEdge e ++ [0]) = .ok e ∧
      ∃ reason, readEdge ((encodeEdge e).take 27) = .error (.malformedRecord reason) := by
  intro n e
  have hn : n.Fits := ⟨by decide, by decide, by decide, by decide⟩
  have he : e.Fits := ⟨by decide, by decide, by decide, by decide, by decide⟩
  obtain ⟨hnode, hedge⟩ := records_isFormat
  refine ⟨hn, he, hnode.read_append n hn _, hnode.read_cut n hn _ (List.dropLast_prefix _) ?_,
    hedge.read_append e he _, hedge.read_cut e he _ (List.take_prefix _ _) ?_⟩
  · intro heq
    have := congrArg List.length heq
    rw [List.length_dropLast, length_encodeNode] at this
    omega
  · intro heq
    have := congrArg List.length heq
    rw [List.length_take, length_encodeEdge] at this
    omega

end Tables

end RulePaths
