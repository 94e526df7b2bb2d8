import RulePaths.Proofs.Graph.Reference
import RulePaths.Proofs.Store.Fallible

/-!
# Stores that hold a graph

A backend is a type of stores together with what it means that a store holds a graph and that an
open transaction has made a graph. Its calls do to these graphs what they are meant to do, as long
as there is room for the outcome, and it has a way of its own to find the nodes that references
speak of.

`Runs` is the triple for computations inside a transaction over a backend any of whose calls may
fail: from a graph the computation either comes to another graph with an answer of which `Q` holds,
or it fails, and then some call was fated to fail.

## Main definitions

- `Backend` — what a type of stores has to do with graphs
- `Backend.Runs` — what a computation inside a transaction does to the graph

## Main results

- `Runs.perform`, `Runs.bind`, `Runs.observe_create` — the rules of the triple
-/

namespace RulePaths

open Snapshot

/-- How stores of a type come about: the store that nothing was committed to, and what a store may
be after it was closed and opened again. -/
class Storage (σ : Type) where
  empty : σ
  /-- The first store may be the second one after it was closed and opened again. Of a store on a
  disk it is assumed that its database brings back the tables that were committed last. -/
  Reopens : σ → σ → Prop

/-- What a type of stores has to do with graphs. -/
structure Backend (σ : Type) {τ : Type} [GraphStore σ τ] [Storage σ] where
  /-- The graph is what is committed to the store. -/
  Shows : σ → Snapshot → Prop
  /-- The transaction is open over the store, started from the first graph and has made the
  second one. -/
  Stages : σ × τ → Snapshot → Snapshot → Prop
  /-- A store of this type can hold the graph. -/
  Room : Snapshot → Prop
  room_of_below : ∀ {g h}, Below g h → Room h → Room g
  shows_empty : Shows Storage.empty Snapshot.empty
  reopens : ∀ {s s' g}, Shows s g → Storage.Reopens s s' → Shows s' g
  sound : ∀ {w base g}, Stages w base g → g.Sound
  extends_base : ∀ {w base g}, Stages w base g → Extends base g
  keepsCommitted : KeepsCommitted σ
  snapshot : ∀ {s g}, Shows s g → GraphStore.snapshot s = (.ok g, s)
  lookup : ∀ {s g}, Shows s g → ∀ kind key,
    GraphStore.lookup kind key s = (.ok (g.node? kind key), s)
  start : ∀ {s g}, Shows s g → ∃ t, GraphStore.start s = (.ok t, s) ∧ Stages (s, t) g g
  /-- How a store of this type finds the nodes that references speak of. -/
  resolve : Resolver
  finds : resolve.Finds
  performBy_ok : ∀ {w base g}, Stages w base g → ∀ {c : TxnCall} {a h},
    performBy resolve base g c = .ok (a, h) → Room h →
      ∃ t, GraphStore.perform c w = (.ok a, w.1, t) ∧ Stages (w.1, t) base h
  performBy_error : ∀ {w base g}, Stages w base g → ∀ {c : TxnCall} {e},
    performBy resolve base g c = .error e → GraphStore.perform c w = (.error e, w)
  commit : ∀ {s t base g}, Stages (s, t) base g →
    ∃ s', GraphStore.commit t s = (.ok (), s') ∧ Shows s' g
  rollback : ∀ (t : τ) (s : σ), GraphStore.rollback t s = (.ok (), s)

namespace Fallible

variable {σ : Type}

/-- Some call that is still to come is fated to fail. -/
def Fated (s : Fallible σ) : Prop :=
  ∃ n, s.calls.length ≤ n ∧ s.fate n ≠ none

theorem not_fated {s : Fallible σ} (h : ∀ n, s.fate n = none) : ¬ s.Fated := by
  rintro ⟨n, _, hn⟩
  exact hn (h n)

theorem Continues.fated {s s' : Fallible σ} (h : s.Continues s') : s'.Fated → s.Fated := by
  rintro ⟨n, hn, hfate⟩
  exact ⟨n, Nat.le_trans h.calls hn, h.fate ▸ hfate⟩

/-- A call that the inner store answers is answered unless it is fated to fail. -/
theorem attempt_cases {α : Type} (sort : CallSort) {m : StoreM σ α} {s : Fallible σ} {a : α}
    {inner : σ} (h : m s.inner = (.ok a, inner)) :
    attempt sort m s = (.ok a, { s with inner, calls := ⟨sort, none⟩ :: s.calls }) ∨
      ∃ e, attempt sort m s = (.error e, { s with calls := ⟨sort, some e⟩ :: s.calls }) ∧
        s.Fated := by
  unfold attempt
  cases hfate : s.fate s.calls.length with
  | some e => exact .inr ⟨e, rfl, _, Nat.le_refl _, by simp [hfate]⟩
  | none =>
    rw [h]
    exact .inl rfl

end Fallible

namespace Backend

open StoreM Fallible

variable {σ τ : Type} [GraphStore σ τ] [Storage σ] (B : Backend σ) {base g h k : Snapshot}
  {α β : Type}

theorem sound_of_shows {s : σ} (hs : B.Shows s g) : g.Sound := by
  obtain ⟨t, _, ht⟩ := B.start hs
  exact B.sound ht

/-- An honest call does what it is meant to do. -/
theorem perform_ok {w : σ × τ} (hw : B.Stages w base g) {c : TxnCall} (hc : c.Honest g)
    {a : c.Answer} (hrun : Snapshot.perform base g c = .ok (a, h)) (hroom : B.Room h) :
    ∃ t, GraphStore.perform c w = (.ok a, w.1, t) ∧ B.Stages (w.1, t) base h := by
  rw [← performBy_of_honest B.finds (B.sound hw) base hc] at hrun
  exact B.performBy_ok hw hrun hroom

/-- An honest call is refused where it is meant to be. -/
theorem perform_error {w : σ × τ} (hw : B.Stages w base g) {c : TxnCall} (hc : c.Honest g)
    {e : StoreError} (hrun : Snapshot.perform base g c = .error e) :
    GraphStore.perform c w = (.error e, w) := by
  rw [← performBy_of_honest B.finds (B.sound hw) base hc] at hrun
  exact B.performBy_error hw hrun

/-- The transaction over the store inside a fallible store has made the graph. -/
def StagesIn (w : Fallible σ × τ) (base g : Snapshot) : Prop :=
  B.Stages (w.1.inner, w.2) base g

/-- From the graph `g` a computation comes to the graph `h` with an answer of which `Q` holds, or
it fails and some call was fated to fail. -/
def Runs (base : Snapshot) (m : StoreM (Fallible σ × τ) α) (g : Snapshot) (Q : α → Prop)
    (h : Snapshot) : Prop :=
  B.Room h → ∀ w, B.StagesIn w base g →
    w.1.Continues (m w).2.1 ∧
      ((∃ a, (m w).1 = .ok a ∧ Q a ∧ B.StagesIn (m w).2 base h) ∨
        (∃ e, (m w).1 = .error e) ∧ w.1.Fated)

variable {B}

/-- An honest call does what it is meant to do unless it is fated to fail. -/
theorem perform_cases {w : Fallible σ × τ} (hw : B.StagesIn w base g) {c : TxnCall}
    (hc : c.Honest g) {a : c.Answer} (hrun : Snapshot.perform base g c = .ok (a, h))
    (hroom : B.Room h) :
    w.1.Continues (GraphStore.perform c w).2.1 ∧
      ((GraphStore.perform c w).1 = .ok a ∧ B.StagesIn (GraphStore.perform c w).2 base h ∨
        (∃ e, (GraphStore.perform c w).1 = .error e) ∧ w.1.Fated ∧
          B.StagesIn (GraphStore.perform c w).2 base g) := by
  cases hfate : w.1.fate w.1.calls.length with
  | some e =>
    have hfated : w.1.Fated := ⟨_, Nat.le_refl _, by simp [hfate]⟩
    rw [perform_failed hfate]
    exact ⟨continues_calls _ _, .inr ⟨⟨e, rfl⟩, hfated, hw⟩⟩
  | none =>
    obtain ⟨t, ht, hstages⟩ := B.perform_ok hw hc hrun hroom
    rw [perform_passed hfate, ht]
    exact ⟨continues_calls _ _, .inl ⟨rfl, hstages⟩⟩

namespace Runs

theorem pure {a : α} {Q : α → Prop} (ha : Q a) :
    B.Runs base (pure a : StoreM (Fallible σ × τ) α) g Q g :=
  fun _ w hw => ⟨.refl w.1, .inl ⟨a, rfl, ha, hw⟩⟩

theorem perform {c : TxnCall} (hc : c.Honest g) {a : c.Answer}
    (hrun : Snapshot.perform base g c = .ok (a, h)) :
    B.Runs base (GraphStore.perform c) g (· = a) h := by
  intro hroom w hw
  obtain ⟨hnext, ⟨hok, hstages⟩ | ⟨herror, hfated, _⟩⟩ := perform_cases hw hc hrun hroom
  · exact ⟨hnext, .inl ⟨a, hok, rfl, hstages⟩⟩
  · exact ⟨hnext, .inr ⟨herror, hfated⟩⟩

theorem bind {m : StoreM (Fallible σ × τ) α} {f : α → StoreM (Fallible σ × τ) β} {Q : α → Prop}
    {R : β → Prop} (hm : B.Runs base m g Q h) (hbelow : Below h k)
    (hf : ∀ a, Q a → B.Runs base (f a) h R k) : B.Runs base (m >>= f) g R k := by
  intro hroom w hw
  rw [bind_apply]
  obtain ⟨hnext, hcases⟩ := hm (B.room_of_below hbelow hroom) w hw
  cases hrun : m w with
  | mk r w' =>
    rw [hrun] at hnext hcases
    rcases hcases with ⟨a, rfl, ha, hstages⟩ | ⟨⟨e, rfl⟩, hfated⟩
    · obtain ⟨hnext', hcases'⟩ := hf a ha hroom w' hstages
      exact ⟨hnext.trans hnext', hcases'.imp id (And.imp id hnext.fated)⟩
    · exact ⟨hnext, .inr ⟨⟨e, rfl⟩, hfated⟩⟩

theorem mono {m : StoreM (Fallible σ × τ) α} {Q R : α → Prop} (hm : B.Runs base m g Q h)
    (hQR : ∀ a, Q a → R a) : B.Runs base m g R h := by
  intro hroom w hw
  obtain ⟨hnext, ⟨a, hok, ha, hstages⟩ | hfailed⟩ := hm hroom w hw
  · exact ⟨hnext, .inl ⟨a, hok, hQR a ha, hstages⟩⟩
  · exact ⟨hnext, .inr hfailed⟩

end Runs

variable (B) in
/-- From the graph `g` a computation fails. -/
def Fails (base : Snapshot) (m : StoreM (Fallible σ × τ) α) (g : Snapshot) : Prop :=
  B.Room g → ∀ w, B.StagesIn w base g → w.1.Continues (m w).2.1 ∧ ∃ e, (m w).1 = .error e

theorem Fails.throw (e : StoreError) :
    B.Fails base (throw e : StoreM (Fallible σ × τ) α) g :=
  fun _ w _ => ⟨.refl w.1, e, rfl⟩

theorem Runs.bind_fails {m : StoreM (Fallible σ × τ) α} {f : α → StoreM (Fallible σ × τ) β}
    {Q : α → Prop} (hm : B.Runs base m g Q g) (hf : ∀ a, Q a → B.Fails base (f a) g) :
    B.Fails base (m >>= f) g := by
  intro hroom w hw
  rw [bind_apply]
  obtain ⟨hnext, hcases⟩ := hm hroom w hw
  cases hrun : m w with
  | mk r w' =>
    rw [hrun] at hnext hcases
    rcases hcases with ⟨a, rfl, ha, hstages⟩ | ⟨⟨e, rfl⟩, _⟩
    · obtain ⟨hnext', herror⟩ := hf a ha hroom w' hstages
      exact ⟨hnext.trans hnext', herror⟩
    · exact ⟨hnext, e, rfl⟩

/-- A node is created that was missing. If it is not, the creation was fated to fail. -/
theorem Runs.observe_create {kind : NodeKind} {key : String} (hnew : g.node? kind key = none)
    {f : Except StoreError NodeRef → StoreM (Fallible σ × τ) β} {R : β → Prop}
    (hbelow : Below (g.addNode kind key .empty) h)
    (hok : B.Runs base (f (.ok ⟨g.nodes.length, kind, key⟩)) (g.addNode kind key .empty) R h)
    (herror : ∀ e, B.Fails base (f (.error e)) g) :
    B.Runs base (observe (GraphStore.perform (.create kind key)) >>= f) g R h := by
  intro hroom w hw
  rw [bind_apply, observe_apply]
  have hrun : Snapshot.perform base g (.create kind key) =
      .ok (⟨g.nodes.length, kind, key⟩, g.addNode kind key .empty) := by
    simp [Snapshot.perform, hnew]
  obtain ⟨hnext, ⟨hanswer, hstages⟩ | ⟨⟨e, hanswer⟩, hfated, hstages⟩⟩ :=
    perform_cases (c := .create kind key) hw trivial hrun (B.room_of_below hbelow hroom)
  · dsimp only
    rw [hanswer]
    obtain ⟨hnext', hcases'⟩ := hok hroom _ hstages
    exact ⟨hnext.trans hnext', hcases'.imp id (And.imp id hnext.fated)⟩
  · dsimp only
    rw [hanswer]
    have hroom' := B.room_of_below ((Below.addNode g kind key .empty).trans hbelow) hroom
    obtain ⟨hnext', herror'⟩ := herror e hroom' _ hstages
    exact ⟨hnext.trans hnext', .inr ⟨herror', hfated⟩⟩

end Backend

end RulePaths
