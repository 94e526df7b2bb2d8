import RulePaths.Proofs.Store.Transactions

/-!
# Stores as graphs

The simplest store is its graph, and the simplest open transaction is the graph that it has made.
Every backend is such a store to those who use it: transactions are answered the same and leave
the same graph, whatever their calls pass. What is left of the backend is its way of finding the
node of a reference.

## Main definitions

- `BareStore` — a graph as a store

## Main results

- `Backend.performAll_bare`, `Backend.run_bare` — calls and transactions on a backend
- `History.runAll_bare` — histories of a backend are those of its graph
-/

namespace RulePaths

open Snapshot

/-- A graph as a store. Its transactions find the nodes of references by `resolve`. -/
structure BareStore (resolve : Resolver) where
  graph : Snapshot

instance (resolve : Resolver) : GraphStore (BareStore resolve) Snapshot where
  lookup kind key := StoreM.read fun s => .ok (s.graph.node? kind key)
  snapshot := StoreM.read fun s => .ok s.graph
  start := StoreM.read fun s => .ok s.graph
  perform c := fun w =>
    match performBy resolve w.1.graph w.2 c with
    | .ok (answer, g) => (.ok answer, (w.1, g))
    | .error e => (.error e, w)
  commit g := fun _ => (.ok (), ⟨g⟩)
  rollback _ := pure ()

namespace BareStore

variable {resolve : Resolver} {base g h : Snapshot}

@[simp] theorem view_eq (s : BareStore resolve) : GraphStore.view s = s.graph.view :=
  rfl

theorem perform_ok {s : BareStore resolve} {c : TxnCall} {a : c.Answer}
    (hrun : performBy resolve s.graph g c = .ok (a, h)) :
    GraphStore.perform c (s, g) = (.ok a, s, h) := by
  show (match performBy resolve s.graph g c with
    | .ok (answer, g) => (Except.ok answer, (s, g))
    | .error e => (.error e, (s, g))) = _
  rw [hrun]

theorem perform_error {s : BareStore resolve} {c : TxnCall} {e : StoreError}
    (hrun : performBy resolve s.graph g c = .error e) :
    GraphStore.perform c (s, g) = (.error e, s, g) := by
  show (match performBy resolve s.graph g c with
    | .ok (answer, g) => (Except.ok answer, (s, g))
    | .error e => (.error e, (s, g))) = _
  rw [hrun]

/-- A call leaves the store alone. It fails and does nothing, or it is one of the steps. -/
theorem perform_cases (s : BareStore resolve) (g : Snapshot) (c : TxnCall) :
    (∃ e, GraphStore.perform c (s, g) = (.error e, s, g)) ∨
      ∃ (a : c.Answer) (h : Snapshot), GraphStore.perform c (s, g) = (.ok a, s, h) ∧
        Step s.graph g c a h := by
  cases hrun : performBy resolve s.graph g c with
  | ok r => exact .inr ⟨r.1, r.2, perform_ok hrun, step_of_performBy hrun⟩
  | error e => exact .inl ⟨e, perform_error hrun⟩

/-- What every step of a transaction keeps holds after any of its calls. -/
theorem performAll_induction {s : BareStore resolve} {P : Snapshot → Prop}
    (hstep : ∀ {g h : Snapshot} {c : TxnCall} {a : c.Answer}, P g → Step s.graph g c a h → P h)
    (cs : List TxnCall) (hg : P g) :
    (performAll cs (s, g)).2.1 = s ∧ P (performAll cs (s, g)).2.2 := by
  induction cs generalizing g with
  | nil => exact ⟨rfl, hg⟩
  | cons c cs ih =>
    rw [performAll]
    obtain ⟨e, heq⟩ | ⟨a, h, heq, hch⟩ := perform_cases s g c
    · rw [heq]
      exact ih hg
    · rw [heq]
      exact ih (hstep hg hch)

theorem apply_eq (ending : Ending) (s : BareStore resolve) (g : Snapshot) :
    ending.apply g s = (.ok (), ⟨if ending = .commit then g else s.graph⟩) := by
  cases ending <;> rfl

theorem run_eq (x : Transaction) (s : BareStore resolve) :
    x.run s = (.ok ⟨s.graph.view, (performAll x.calls (s, s.graph)).1, x.ending, .ok (),
      (if x.ending = .commit then (performAll x.calls (s, s.graph)).2.2 else s.graph).view⟩,
      ⟨if x.ending = .commit then (performAll x.calls (s, s.graph)).2.2 else s.graph⟩) := by
  have hstart : GraphStore.start s = (.ok s.graph, s) := rfl
  have hstore : (performAll x.calls (s, s.graph)).2.1 = s :=
    (performAll_induction (P := fun _ => True) (fun _ _ => trivial) x.calls trivial).1
  simp only [Transaction.run, hstart, apply_eq, hstore, view_eq]

end BareStore

/-! ### Backends -/

namespace Backend

variable {σ τ : Type} [GraphStore σ τ] [Storage σ] (B : Backend σ) {s : σ} {t : τ}
  {base g : Snapshot} {limit : Nat}

theorem view_eq (hs : B.Shows s g) : GraphStore.view s = g.view := by
  have hcounts : GraphStore.counts s = (.ok g.counts, s) := by
    rw [GraphStore.counts, StoreM.bind_apply, B.snapshot hs]
    rfl
  simp only [GraphStore.view, Snapshot.view, B.lookup hs, B.snapshot hs, hcounts]

/-- A call is answered like on the graph, and the graph grows by no more than it asks for. -/
theorem perform_bare (hroom : ∀ h : Snapshot, h.size < limit → B.Room h)
    (ht : B.Stages (s, t) base g) (c : TxnCall) (hsize : g.size + c.size < limit) :
    ∃ (a : Except StoreError c.Answer) (t' : τ) (h : Snapshot),
      GraphStore.perform c (s, t) = (a, s, t') ∧
      GraphStore.perform c ((⟨base⟩ : BareStore B.resolve), g) = (a, ⟨base⟩, h) ∧
      B.Stages (s, t') base h ∧ h.size ≤ g.size + c.size := by
  cases hrun : performBy B.resolve base g c with
  | ok r =>
    have hle := (step_of_performBy hrun).size_le
    obtain ⟨t', hperform, ht'⟩ := B.performBy_ok ht hrun (hroom _ (Nat.lt_of_le_of_lt hle hsize))
    exact ⟨.ok r.1, t', r.2, hperform, BareStore.perform_ok hrun, ht', hle⟩
  | error e =>
    exact ⟨.error e, t, g, B.performBy_error ht hrun, BareStore.perform_error hrun, ht,
      Nat.le_add_right _ _⟩

theorem performAll_bare (hroom : ∀ h : Snapshot, h.size < limit → B.Room h) (hs : B.Shows s base)
    (ht : B.Stages (s, t) base g) (cs : List TxnCall) (hsize : g.size + callsSize cs < limit) :
    ∃ (exchanges : List Exchange) (t' : τ) (h : Snapshot),
      performAll cs (s, t) = (exchanges, s, t') ∧
      performAll cs ((⟨base⟩ : BareStore B.resolve), g) = (exchanges, ⟨base⟩, h) ∧
      B.Stages (s, t') base h ∧ h.size ≤ g.size + callsSize cs := by
  induction cs generalizing t g with
  | nil => exact ⟨[], t, g, rfl, rfl, ht, Nat.le_refl _⟩
  | cons c cs ih =>
    rw [callsSize_cons] at hsize ⊢
    obtain ⟨a, t', h, hperform, hbare, ht', hle⟩ := B.perform_bare hroom ht c (by omega)
    obtain ⟨exchanges, t'', k, hperforms, hbares, ht'', hle'⟩ := ih ht' (by omega)
    refine ⟨⟨c, a, base.view⟩ :: exchanges, t'', k, ?_, ?_, ht'', by omega⟩
    · simp only [performAll, hperform, hperforms, B.view_eq hs]
    · simp only [performAll, hbare, hbares, BareStore.view_eq]

/-- The end of a transaction that has made the graph `g`. -/
theorem apply_shows (hs : B.Shows s base) (ht : B.Stages (s, t) base g) (ending : Ending) :
    ∃ s' : σ, ending.apply t s = (.ok (), s') ∧
      B.Shows s' (if ending = .commit then g else base) := by
  cases ending with
  | commit => exact B.commit ht
  | rollback => exact ⟨s, B.rollback t s, hs⟩
  | drop => exact ⟨s, rfl, hs⟩

theorem run_bare (hroom : ∀ h : Snapshot, h.size < limit → B.Room h) (hs : B.Shows s g)
    (x : Transaction) (hsize : g.size + callsSize x.calls < limit) :
    ∃ (trace : Except StoreError Trace) (s' : σ) (h : Snapshot),
      x.run s = (trace, s') ∧ x.run (⟨g⟩ : BareStore B.resolve) = (trace, ⟨h⟩) ∧ B.Shows s' h ∧
      h.size ≤ g.size + x.kept := by
  obtain ⟨t, hstart, ht⟩ := B.start hs
  obtain ⟨exchanges, t', h, hperform, hbare, ht', hle⟩ :=
    B.performAll_bare hroom hs ht x.calls hsize
  obtain ⟨s', happly, hs'⟩ := B.apply_shows hs ht' x.ending
  refine ⟨_, s', _, ?_, BareStore.run_eq x ⟨g⟩, ?_, ?_⟩
  · simp only [Transaction.run, hstart, hperform, happly, hbare, B.view_eq hs, B.view_eq hs']
  · rwa [hbare]
  · rw [hbare, Transaction.kept]
    split
    · exact hle
    · exact Nat.le_add_right _ _

end Backend

section History

variable {σ τ : Type} [GraphStore σ τ] [Storage σ] {limit : Nat} {xs ys : List Transaction}
  {traces : List (Except StoreError Trace)}

/-- A history of a backend is answered like its graph, which the store shows in the end. After it
there is still room for all that comes then. -/
theorem History.runAll_bare (B : Backend σ) (hroom : ∀ h : Snapshot, h.size < limit → B.Room h)
    {s s' : σ} (hhistory : History s xs traces s') {g : Snapshot} (hs : B.Shows s g)
    (hfits : Fits limit g.size (xs ++ ys)) :
    ∃ h : Snapshot, runAll xs (⟨g⟩ : BareStore B.resolve) = (traces, ⟨h⟩) ∧ B.Shows s' h ∧
      Fits limit h.size ys := by
  induction hhistory generalizing g with
  | nil s => exact ⟨g, rfl, hs, hfits⟩
  | run hrun _ ih =>
    obtain ⟨trace, s', h, hrun', hbare, hs', hle⟩ := B.run_bare hroom hs _ hfits.1
    obtain ⟨rfl, rfl⟩ := Prod.mk.inj (hrun.symm.trans hrun')
    obtain ⟨k, hbares, hs'', hrest⟩ := ih hs' (hfits.2.mono (Nat.le_refl _) hle)
    exact ⟨k, by simp only [runAll, hbare, hbares], hs'', hrest⟩
  | reopen hreopens _ ih => exact ih (B.reopens hs hreopens) hfits

/-- The graph that a store shows whose history started from nothing. -/
theorem History.exists_shows (B : Backend σ) (hroom : ∀ h : Snapshot, h.size < limit → B.Room h)
    {s : σ} (hhistory : History Storage.empty xs traces s) (hfits : Fits limit 0 (xs ++ ys)) :
    ∃ g : Snapshot, runAll xs (⟨.empty⟩ : BareStore B.resolve) = (traces, ⟨g⟩) ∧ B.Shows s g ∧
      Fits limit g.size ys :=
  hhistory.runAll_bare B hroom B.shows_empty hfits

end History

end RulePaths
