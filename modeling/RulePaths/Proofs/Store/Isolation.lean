import RulePaths.Proofs.Store.Bare
import RulePaths.Proofs.Store.Durable
import RulePaths.Proofs.Store.Memory

/-!
# Transactions are isolated, and what was committed stays as it was

Whatever a transaction is asked to do, and whatever references and numbers it is passed, nothing of
it is read outside of it before it is committed, and nothing at all if it is not. If it is
committed, its records come behind those that were there before, none of which is changed.

## Main definitions

- `Trace.Isolated` — nothing of a transaction is read that is not committed
- `Trace.Appends` — a commit puts records behind those that are there

## Main results

- `isolated_run` — every transaction on any store that transactions have led to
-/

namespace RulePaths

open Snapshot

namespace Trace

/-- Until the transaction is committed everything is read as it was before. -/
structure Isolated (trace : Trace) (x : Transaction) (before : View) : Prop where
  calls : trace.exchanges.map Exchange.call = x.calls
  ended : trace.ending = x.ending ∧ trace.ended = .ok ()
  begun : trace.begun = before
  unseen : ∀ e ∈ trace.exchanges, e.view = before
  forgotten : x.ending ≠ .commit → trace.after = before

/-- If the transaction is committed, the old records are a prefix of the new ones. -/
def Appends (trace : Trace) (before : View) : Prop :=
  trace.ending = .commit → ∃ g h : Snapshot, before.snapshot = .ok g ∧
    trace.after.snapshot = .ok h ∧ g.nodes <+: h.nodes ∧ g.edges <+: h.edges

end Trace

/-! ### What is not committed -/

section

variable {σ τ : Type} [GraphStore σ τ]

theorem map_call_performAll (cs : List TxnCall) (w : σ × τ) :
    (performAll cs w).1.map Exchange.call = cs := by
  induction cs generalizing w with
  | nil => rfl
  | cons c cs ih => rw [performAll, List.map_cons, ih]

namespace KeepsCommitted

variable (hkeeps : KeepsCommitted σ)

include hkeeps

theorem fst_performAll (cs : List TxnCall) (w : σ × τ) : (performAll cs w).2.1 = w.1 := by
  induction cs generalizing w with
  | nil => rfl
  | cons c cs ih => rw [performAll, ih, hkeeps.perform]

theorem view_of_mem_performAll {cs : List TxnCall} {w : σ × τ} :
    ∀ e ∈ (performAll cs w).1, e.view = GraphStore.view w.1 := by
  induction cs generalizing w with
  | nil => simp [performAll]
  | cons c cs ih =>
    have hrest := ih (w := (GraphStore.perform c w).2)
    rw [hkeeps.perform] at hrest
    simp only [performAll, List.forall_mem_cons, hkeeps.perform]
    exact ⟨trivial, hrest⟩

theorem run_isolated (x : Transaction) {s : σ} {t : τ} (hstart : GraphStore.start s = (.ok t, s))
    (hended : ∀ (t : τ) (s : σ), (x.ending.apply t s).1 = .ok ()) :
    ∃ trace, (x.run s).1 = .ok trace ∧ trace.Isolated x (GraphStore.view s) := by
  have hstore := hkeeps.fst_performAll x.calls (s, t)
  refine ⟨_, by rw [Transaction.run, hstart], ?_⟩
  exact {
    calls := map_call_performAll _ _
    ended := ⟨rfl, hended _ _⟩
    begun := rfl
    unseen := hkeeps.view_of_mem_performAll
    forgotten := fun hending => by
      have hend : (x.ending.apply (performAll x.calls (s, t)).2.2 s).2 = s := by
        cases hx : x.ending with
        | commit => exact absurd hx hending
        | rollback => exact hkeeps.rollback _ s
        | drop => rfl
      simp only [hstore, hend] }

end KeepsCommitted

end

/-! ### What is committed -/

theorem BareStore.appends_run {resolve : Resolver} {s s' : BareStore resolve} {x : Transaction}
    {trace : Trace} (hrun : x.run s = (.ok trace, s')) : trace.Appends s.graph.view := by
  rw [run_eq] at hrun
  obtain ⟨htrace, -⟩ := Prod.mk.inj hrun
  obtain rfl := Except.ok.inj htrace
  intro hending
  obtain ⟨_, hextends⟩ := performAll_induction (s := s) (P := Extends s.graph)
    (fun hg hstep => hstep.extends_base hg) x.calls (.refl s.graph)
  rw [if_pos hending]
  exact ⟨_, _, rfl, rfl, hextends.nodes, hextends.edges⟩

theorem History.appends_run {σ τ : Type} [GraphStore σ τ] [Storage σ] (B : Backend σ)
    {limit : Nat} (hroom : ∀ h : Snapshot, h.size < limit → B.Room h) {xs : List Transaction}
    {traces : List (Except StoreError Trace)} {s : σ}
    (hhistory : History Storage.empty xs traces s) {x : Transaction}
    (hfits : Fits limit 0 (xs ++ [x])) {trace : Trace} (hrun : (x.run s).1 = .ok trace) :
    trace.Appends (GraphStore.view s) := by
  obtain ⟨g, _, hs, hx⟩ := hhistory.exists_shows B hroom hfits
  obtain ⟨_, _, _, hrun', hbare, _⟩ := B.run_bare hroom hs x hx.1
  rw [hrun'] at hrun
  obtain rfl := hrun
  rw [B.view_eq hs]
  exact BareStore.appends_run hbare

/-- On every store that transactions have led to, a further transaction is isolated, and appends
to what is committed if it is committed itself. In tables there is room for `2 ^ 64` bytes. -/
theorem isolated_run :
    (∀ {xs : List Transaction} {traces : List (Except StoreError Trace)} {s : MemoryStore},
      History Storage.empty xs traces s → ∀ x : Transaction,
        ∃ trace, (x.run s).1 = .ok trace ∧ trace.Isolated x (GraphStore.view s) ∧
          trace.Appends (GraphStore.view s)) ∧
    (∀ {xs : List Transaction} {traces : List (Except StoreError Trace)} {s : Tables},
      History Storage.empty xs traces s → ∀ x : Transaction,
        ∃ trace, (x.run s).1 = .ok trace ∧ trace.Isolated x (GraphStore.view s) ∧
          (Fits (2 ^ 64) 0 (xs ++ [x]) → trace.Appends (GraphStore.view s))) := by
  constructor
  · intro xs traces s hhistory x
    obtain ⟨trace, hrun, hisolated⟩ := MemoryStore.keepsCommitted.run_isolated x (s := s) rfl
      fun _ _ => by cases x.ending <;> rfl
    obtain ⟨limit, hfits⟩ := Fits.exists_fits 0 (xs ++ [x])
    exact ⟨trace, hrun, hisolated,
      hhistory.appends_run MemoryStore.backend (fun _ _ => trivial) hfits hrun⟩
  · intro xs traces s hhistory x
    obtain ⟨trace, hrun, hisolated⟩ := Tables.keepsCommitted.run_isolated x (s := s) rfl
      fun _ _ => by cases x.ending <;> rfl
    exact ⟨trace, hrun, hisolated, fun hfits =>
      hhistory.appends_run Tables.backend (fun _ => storable_of_size_lt) hfits hrun⟩

theorem isolated_run_forgedCalls :
    History Storage.empty [linkedPair] (runAll [linkedPair] Tables.empty).1
        (runAll [linkedPair] Tables.empty).2 ∧
      Fits (2 ^ 64) 0 ([linkedPair] ++ [forgedCalls]) ∧
      ∃ trace, (forgedCalls.run (runAll [linkedPair] Tables.empty).2).1 = .ok trace ∧
        trace.Isolated forgedCalls (GraphStore.view (runAll [linkedPair] Tables.empty).2) ∧
        trace.Appends (GraphStore.view (runAll [linkedPair] Tables.empty).2) := by
  have hhistory := history_runAll [linkedPair] Tables.empty
  have hfits : Fits (2 ^ 64) 0 ([linkedPair] ++ [forgedCalls]) := by decide
  obtain ⟨trace, hrun, hisolated, happends⟩ := isolated_run.2 hhistory forgedCalls
  exact ⟨hhistory, hfits, trace, hrun, hisolated, happends hfits⟩

end RulePaths
