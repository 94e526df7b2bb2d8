import RulePaths.Proofs.Store.Bare
import RulePaths.Proofs.Store.Durable
import RulePaths.Proofs.Store.Memory

/-!
# Stores represent the graphs that transactions made

Whatever transactions were asked to do, and whatever references and numbers they were passed, a
store represents a sound graph, and so does an open transaction. The records of the graph are those
that calls of committed transactions created, in the order of these calls, so that the first node
has the number zero and so on. Outside of transactions a node is found exactly if it is there,
and a transaction creates a node unless it finds it.

## Main definitions

- `Snapshot.CreatedBy` — the records of a graph and the calls that created them
- `FindsNodes` — nodes are found exactly if they are there
- `CreatesMissing` — nodes are created unless they are found

## Main results

- `stores_represent` — stores and open transactions represent sound graphs
-/

namespace RulePaths

open Snapshot

/-! ### What calls create -/

def Exchange.newNodes : Exchange → List NodeRef
  | ⟨.create .., .ok node, _⟩ => [node]
  | _ => []

def Exchange.newEdges : Exchange → List EdgeRecord
  | ⟨.link kind source target, .ok id, _⟩ => [.new id kind source.id target.id]
  | _ => []

/-- The calls of committed transactions. -/
def committed (traces : List (Except StoreError Trace)) : List Exchange :=
  traces.flatMap fun
    | .ok trace => if trace.ending = .commit then trace.exchanges else []
    | .error _ => []

/-- Apart from their properties, the records of the graph are those that the calls created, one
after the other. -/
structure Snapshot.CreatedBy (g : Snapshot) (exchanges : List Exchange) : Prop where
  nodes : g.nodes.map NodeRecord.toRef = exchanges.flatMap Exchange.newNodes
  edges : g.edges.map (fun e => EdgeRecord.new e.id e.kind e.source e.target) =
    exchanges.flatMap Exchange.newEdges

namespace Snapshot.CreatedBy

variable {base g h : Snapshot} {exchanges : List Exchange}

theorem empty : Snapshot.empty.CreatedBy [] :=
  ⟨rfl, rfl⟩

theorem concat_error (hg : g.CreatedBy exchanges) (c : TxnCall) (e : StoreError) (v : View) :
    g.CreatedBy (exchanges ++ [⟨c, .error e, v⟩]) := by
  constructor
  · rw [hg.nodes]
    cases c <;> simp [Exchange.newNodes]
  · rw [hg.edges]
    cases c <;> simp [Exchange.newEdges]

theorem concat_ok (hg : g.CreatedBy exchanges) {c : TxnCall} {a : c.Answer}
    (hstep : Step base g c a h) (v : View) : h.CreatedBy (exchanges ++ [⟨c, .ok a, v⟩]) := by
  constructor <;> rw [List.flatMap_append]
  · rw [← hg.nodes]
    cases hstep with
    | create => simp [Exchange.newNodes, NodeRecord.toRef]
    | setNode _ _ name value =>
      rw [Snapshot.setNode, map_modify_eq (f := NodeRecord.toRef)
        (m := fun n => n.setProperty name value) fun _ => rfl]
      simp [Exchange.newNodes]
    | find | link | setEdge => simp [Exchange.newNodes, Snapshot.setEdge]
  · rw [← hg.edges]
    cases hstep with
    | link => simp [Exchange.newEdges]
    | setEdge _ _ name value =>
      rw [Snapshot.setEdge, map_modify_eq (m := fun e => e.setProperty name value)
        (f := fun e : EdgeRecord => EdgeRecord.new e.id e.kind e.source e.target) fun _ => rfl]
      simp [Exchange.newEdges]
    | find | create | setNode => simp [Exchange.newEdges, Snapshot.setNode]

end Snapshot.CreatedBy

namespace BareStore

variable {resolve : Resolver}

theorem createdBy_performAll {s : BareStore resolve} {g : Snapshot} {exchanges : List Exchange}
    (hg : g.CreatedBy exchanges) (cs : List TxnCall) :
    (performAll cs (s, g)).2.2.CreatedBy (exchanges ++ (performAll cs (s, g)).1) := by
  induction cs generalizing g exchanges with
  | nil => simpa [performAll] using hg
  | cons c cs ih =>
    rw [performAll, List.append_cons]
    obtain ⟨e, heq⟩ | ⟨a, h, heq, hstep⟩ := perform_cases s g c
    · rw [heq]
      exact ih (hg.concat_error c e _)
    · rw [heq]
      exact ih (hg.concat_ok hstep _)

theorem createdBy_runAll {s : BareStore resolve} {exchanges : List Exchange}
    (hs : s.graph.CreatedBy exchanges) (xs : List Transaction) :
    (runAll xs s).2.graph.CreatedBy (exchanges ++ committed (runAll xs s).1) := by
  induction xs generalizing s exchanges with
  | nil => simpa [runAll, committed] using hs
  | cons x xs ih =>
    rw [runAll, committed, List.flatMap_cons, ← List.append_assoc]
    apply ih
    rw [run_eq]
    by_cases hending : x.ending = .commit
    · simp only [if_pos hending]
      exact createdBy_performAll hs x.calls
    · simpa only [if_neg hending, List.append_nil] using hs

end BareStore

/-! ### What is found and what is created -/

section

variable {σ τ : Type} [GraphStore σ τ]

/-- A node is found exactly if it is among all that is committed. -/
def FindsNodes (s : σ) : Prop :=
  ∃ g : Snapshot, (GraphStore.snapshot s).1 = .ok g ∧ ∀ (kind : NodeKind) (key : String)
    (n : NodeRecord), (GraphStore.lookup kind key s).1 = .ok (some n) ↔
      n ∈ g.nodes ∧ n.name = (kind, key)

/-- A transaction says that a node already exists exactly if it finds it. -/
def CreatesMissing (w : σ × τ) : Prop :=
  ∀ (kind : NodeKind) (key : String),
    (GraphStore.perform (.create kind key) w).1 = .error (.alreadyExists kind key) ↔
      ∃ node, (GraphStore.perform (.find kind key) w).1 = .ok (some node)

theorem Backend.findsNodes [Storage σ] (B : Backend σ) {s : σ} {g : Snapshot} (hs : B.Shows s g) :
    FindsNodes s := by
  refine ⟨g, by rw [B.snapshot hs], fun kind key n => ?_⟩
  rw [B.lookup hs, ← (B.sound_of_shows hs).node?_eq_some_iff]
  simp

end

theorem MemoryStore.fst_perform (c : TxnCall) (w : MemoryStore × MemoryTxn) :
    (GraphStore.perform c w).1 = (MemoryTxn.perform w.1 w.2 c).map Prod.fst := by
  dsimp only [GraphStore.perform]
  cases MemoryTxn.perform w.1 w.2 c <;> rfl

theorem MemoryStore.createsMissing (w : MemoryStore × MemoryTxn) : CreatesMissing w := by
  intro kind key
  rw [fst_perform, fst_perform, MemoryTxn.perform, MemoryTxn.perform, MemoryTxn.create]
  cases w.2.find? w.1 kind key <;> simp [Except.map]

theorem Tables.fst_perform (c : TxnCall) (w : Tables × TablesTxn) :
    (GraphStore.perform c w).1 = (TablesTxn.perform w.2 c).map Prod.fst := by
  dsimp only [GraphStore.perform]
  cases TablesTxn.perform w.2 c <;> rfl

theorem Tables.loadNode_ne_alreadyExists (t : Tables) (composite : String) (kind : NodeKind)
    (key : String) : t.loadNode composite ≠ .error (.alreadyExists kind key) := by
  rw [loadNode]
  cases t.nodes.get? composite with
  | none => simp
  | some bytes =>
    simp only [readNode]
    cases RecordBytes.decodeNode? bytes <;> simp [Except.map]

theorem Tables.createsMissing (w : Tables × TablesTxn) : CreatesMissing w := by
  intro kind key
  rw [fst_perform, fst_perform, TablesTxn.perform, TablesTxn.perform, TablesTxn.create,
    TablesTxn.find?]
  cases hload : w.2.tables.loadNode (compositeKey kind key) with
  | error e =>
    have hne : e ≠ .alreadyExists kind key := by
      rintro rfl
      exact loadNode_ne_alreadyExists _ _ _ _ hload
    simpa [Except.map, bind, Except.bind] using hne
  | ok found =>
    cases found <;>
      simp [Except.map, bind, Except.bind, pure, Except.pure, throw, throwThe, MonadExceptOf.throw]

/-! ### Histories -/

theorem MemoryStore.Stages.ends_lt {s : MemoryStore} {t : MemoryTxn} {base g : Snapshot}
    (h : MemoryStore.Stages s t base g) :
    ∀ e ∈ t.edges, e.source < (s.nodes ++ t.nodes).size ∧ e.target < (s.nodes ++ t.nodes).size := by
  intro e he
  have hmem : e ∈ g.edges := h.edges ▸ List.mem_append_right _ (Array.mem_toList_iff.2 he)
  have hsize : g.nodes.length = (s.nodes ++ t.nodes).size := by
    rw [h.nodes, ← h.shows.graph, MemoryStore.toSnapshot]
    simp
  exact hsize ▸ h.sound.ends e hmem

section

variable {σ τ : Type} [GraphStore σ τ] [Storage σ] (B : Backend σ) {limit : Nat}
  {xs : List Transaction} {traces : List (Except StoreError Trace)} {s : σ} {base : Snapshot}

include B

theorem Backend.shows_inj {g h : Snapshot} (hg : B.Shows s g) (hh : B.Shows s h) : g = h :=
  Except.ok.inj (Prod.mk.inj ((B.snapshot hg).symm.trans (B.snapshot hh))).1

theorem History.represented (hroom : ∀ h : Snapshot, h.size < limit → B.Room h)
    (hhistory : History Storage.empty xs traces s) (hfits : Fits limit 0 xs) :
    ∃ base : Snapshot, B.Shows s base ∧ base.CreatedBy (committed traces) ∧ FindsNodes s := by
  rw [← List.append_nil xs] at hfits
  obtain ⟨base, hbare, hs, _⟩ := hhistory.exists_shows B hroom hfits
  have hcreated := BareStore.createdBy_runAll (s := (⟨.empty⟩ : BareStore B.resolve)) .empty xs
  rw [hbare] at hcreated
  exact ⟨base, hs, hcreated, B.findsNodes hs⟩

theorem History.staged (hroom : ∀ h : Snapshot, h.size < limit → B.Room h)
    (hhistory : History Storage.empty xs traces s) (hs : B.Shows s base)
    (hcreated : base.CreatedBy (committed traces)) {t : τ}
    (hstart : GraphStore.start s = (.ok t, s)) (cs : List TxnCall)
    (hfits : Fits limit 0 (xs ++ [⟨cs, .drop⟩])) :
    ∃ (exchanges : List Exchange) (t' : τ) (g : Snapshot),
      performAll cs (s, t) = (exchanges, s, t') ∧ B.Stages (s, t') base g ∧
      g.CreatedBy (committed traces ++ exchanges) := by
  obtain ⟨base', _, hs', hcs⟩ := hhistory.exists_shows B hroom hfits
  obtain rfl := B.shows_inj hs hs'
  obtain ⟨t₀, hstart', ht⟩ := B.start hs
  obtain rfl : t = t₀ := Except.ok.inj (Prod.mk.inj (hstart.symm.trans hstart')).1
  obtain ⟨exchanges, t', g, hperform, hbare, ht', _⟩ := B.performAll_bare hroom hs ht cs hcs.1
  have hcreated' := BareStore.createdBy_performAll (s := (⟨base⟩ : BareStore B.resolve)) hcreated cs
  rw [hbare] at hcreated'
  exact ⟨exchanges, t', g, hperform, ht', hcreated'⟩

end

/-- Whatever transactions led to a store, it represents a sound graph, and so does a transaction
that is open over it after any calls. Once a transaction in memory is committed, its edges meet
both their ends. In tables there is room for `2 ^ 64` bytes. -/
theorem stores_represent :
    (∀ {xs : List Transaction} {traces : List (Except StoreError Trace)} {s : MemoryStore},
      History Storage.empty xs traces s →
      ∃ base : Snapshot, s.Shows base ∧ base.CreatedBy (committed traces) ∧ FindsNodes s ∧
        ∀ cs : List TxnCall, ∃ (exchanges : List Exchange) (t : MemoryTxn) (g : Snapshot),
          performAll cs (s, s.start) = (exchanges, s, t) ∧ MemoryStore.Stages s t base g ∧
          g.CreatedBy (committed traces ++ exchanges) ∧ CreatesMissing (s, t) ∧
          ∀ e ∈ t.edges, e.source < (s.nodes ++ t.nodes).size ∧
            e.target < (s.nodes ++ t.nodes).size) ∧
    (∀ {xs : List Transaction} {traces : List (Except StoreError Trace)} {s : Tables},
      History Storage.empty xs traces s → Fits (2 ^ 64) 0 xs →
      ∃ base : Snapshot, s.Represents base ∧ base.CreatedBy (committed traces) ∧ FindsNodes s ∧
        ∀ cs : List TxnCall, Fits (2 ^ 64) 0 (xs ++ [⟨cs, .drop⟩]) →
          ∃ (exchanges : List Exchange) (t : TablesTxn) (g : Snapshot),
            performAll cs (s, s.start) = (exchanges, s, t) ∧ Tables.Stages t base g ∧
            g.CreatedBy (committed traces ++ exchanges) ∧ CreatesMissing (s, t)) := by
  constructor
  · intro xs traces s hhistory
    obtain ⟨limit, hfits⟩ := Fits.exists_fits 0 xs
    obtain ⟨base, hs, hcreated, hfinds⟩ :=
      hhistory.represented MemoryStore.backend (fun _ _ => trivial) hfits
    refine ⟨base, hs, hcreated, hfinds, fun cs => ?_⟩
    obtain ⟨limit', hfits'⟩ := Fits.exists_fits 0 (xs ++ [⟨cs, .drop⟩])
    obtain ⟨exchanges, t, g, hperform, ht, hg⟩ :=
      hhistory.staged MemoryStore.backend (fun _ _ => trivial) hs hcreated rfl cs hfits'
    exact ⟨exchanges, t, g, hperform, ht, hg, MemoryStore.createsMissing _, ht.ends_lt⟩
  · intro xs traces s hhistory hfits
    obtain ⟨base, hs, hcreated, hfinds⟩ :=
      hhistory.represented Tables.backend (fun _ => storable_of_size_lt) hfits
    refine ⟨base, hs, hcreated, hfinds, fun cs hfits' => ?_⟩
    obtain ⟨exchanges, t, g, hperform, ht, hg⟩ :=
      hhistory.staged Tables.backend (fun _ => storable_of_size_lt) hs hcreated rfl cs hfits'
    exact ⟨exchanges, t, g, hperform, ht.1, hg, Tables.createsMissing _⟩

theorem stores_represent_forgedCalls :
    History Storage.empty [linkedPair, forgedCalls]
        (runAll [linkedPair, forgedCalls] Tables.empty).1
        (runAll [linkedPair, forgedCalls] Tables.empty).2 ∧
      Fits (2 ^ 64) 0 [linkedPair, forgedCalls] ∧
      Fits (2 ^ 64) 0 ([linkedPair, forgedCalls] ++ [⟨forgedCalls.calls, .drop⟩]) ∧
      ∃ (base g : Snapshot) (exchanges : List Exchange) (t : TablesTxn),
        let traces := (runAll [linkedPair, forgedCalls] Tables.empty).1
        let s := (runAll [linkedPair, forgedCalls] Tables.empty).2
        s.Represents base ∧ base.CreatedBy (committed traces) ∧ FindsNodes s ∧
          performAll forgedCalls.calls (s, s.start) = (exchanges, s, t) ∧
          Tables.Stages t base g ∧ g.CreatedBy (committed traces ++ exchanges) ∧
          CreatesMissing (s, t) := by
  have hhistory := history_runAll [linkedPair, forgedCalls] Tables.empty
  have hfits : Fits (2 ^ 64) 0 [linkedPair, forgedCalls] := by decide
  have hfits' : Fits (2 ^ 64) 0 ([linkedPair, forgedCalls] ++ [⟨forgedCalls.calls, .drop⟩]) := by
    decide
  obtain ⟨base, hs, hcreated, hfinds, hstaged⟩ := stores_represent.2 hhistory hfits
  obtain ⟨exchanges, t, g, hperform, ht, hg, hmissing⟩ := hstaged forgedCalls.calls hfits'
  exact ⟨hhistory, hfits, hfits', base, g, exchanges, t, hs, hcreated, hfinds, hperform, ht, hg,
    hmissing⟩

end RulePaths
