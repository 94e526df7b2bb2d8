import RulePaths.Proofs.Store.Bare
import RulePaths.Proofs.Store.Durable
import RulePaths.Proofs.Store.Memory

/-!
# The store in memory and the store in tables agree

The two stores differ in how they find the node whose property is set, in the order in which they
look whether a record exists and whether it is committed, and in what they keep it in. As long as
all node references come from the store itself, none of this can be told from what they answer.

## Main definitions

- `Earned` — all node references come from the store

## Main results

- `BareStore.runAll_agree` — it does not matter how nodes are found
- `stores_agree` — the two stores answer the same and show the same
-/

namespace RulePaths

open Snapshot

/-! ### References that come from the store -/

/-- The node references that a call passes. -/
def TxnCall.refs : TxnCall → List NodeRef
  | .find .. | .create .. | .setEdge .. => []
  | .setNode node .. => [node]
  | .link _ source target => [source, target]

/-- The node references that a call is answered. -/
def Exchange.found : Exchange → List NodeRef
  | ⟨.find .., .ok (some node), _⟩ => [node]
  | ⟨.create .., .ok node, _⟩ => [node]
  | _ => []

/-- Every reference that is passed is known or was answered to an earlier call. -/
def EarnedIn (known : List NodeRef) : List Exchange → Prop
  | [] => True
  | e :: es => e.call.refs ⊆ known ∧ EarnedIn (known ++ e.found) es

/-- The references that are known after a transaction. -/
def Trace.known (trace : Trace) (known : List NodeRef) : List NodeRef :=
  if trace.ending = .commit then known ++ trace.exchanges.flatMap Exchange.found else known

/-- Every reference that is passed is known or was answered earlier, in the same transaction or in
one that was committed. -/
def Earned (known : List NodeRef) : List (Except StoreError Trace) → Prop
  | [] => True
  | .error _ :: traces => Earned known traces
  | .ok trace :: traces => EarnedIn known trace.exchanges ∧ Earned (trace.known known) traces

instance EarnedIn.decidable : (known : List NodeRef) → (es : List Exchange) →
    Decidable (EarnedIn known es)
  | _, [] => .isTrue trivial
  | known, e :: es =>
    have := EarnedIn.decidable (known ++ e.found) es
    have : Decidable (e.call.refs ⊆ known) :=
      inferInstanceAs (Decidable (∀ node ∈ e.call.refs, node ∈ known))
    inferInstanceAs (Decidable (_ ∧ _))

instance Earned.decidable : (known : List NodeRef) → (traces : List (Except StoreError Trace)) →
    Decidable (Earned known traces)
  | _, [] => .isTrue trivial
  | known, .error _ :: traces => Earned.decidable known traces
  | known, .ok trace :: traces =>
    have := Earned.decidable (trace.known known) traces
    inferInstanceAs (Decidable (_ ∧ _))

@[simp] theorem Exchange.found_error (c : TxnCall) (e : StoreError) (v : View) :
    Exchange.found ⟨c, .error e, v⟩ = [] := by
  cases c <;> rfl

theorem TxnCall.honest_of_refs {g : Snapshot} {c : TxnCall} (h : ∀ node ∈ c.refs, g.Has node) :
    c.Honest g := by
  cases c with
  | find | create | setEdge => trivial
  | setNode node => exact h node (by simp [refs])
  | link _ source target => exact ⟨h source (by simp [refs]), h target (by simp [refs])⟩

theorem Snapshot.Step.has_of_found {base g h : Snapshot} {c : TxnCall} {a : c.Answer}
    (hstep : Step base g c a h) (hg : g.Sound) (v : View) :
    ∀ node ∈ (⟨c, .ok a, v⟩ : Exchange).found, h.Has node := by
  cases hstep with
  | find kind key =>
    cases hfound : g.node? kind key with
    | none => simp [Exchange.found]
    | some n => simpa [Exchange.found] using hg.has_of_node? hfound
  | create => simpa [Exchange.found] using has_new g _ _ .empty
  | setNode | link | setEdge => simp [Exchange.found]

/-! ### Graphs -/

namespace BareStore

variable {r r' : Resolver} {base g : Snapshot} {known : List NodeRef}

/-- How nodes are found does not matter to an honest call. -/
theorem perform_agree (hr : r.Finds) (hr' : r'.Finds) (hg : g.Sound) {c : TxnCall}
    (hc : c.Honest g) {a : Except StoreError c.Answer} {h : Snapshot}
    (hrun : GraphStore.perform c ((⟨base⟩ : BareStore r), g) = (a, ⟨base⟩, h)) :
    GraphStore.perform c ((⟨base⟩ : BareStore r'), g) = (a, ⟨base⟩, h) := by
  have heq : performBy r base g c = performBy r' base g c :=
    (performBy_of_honest hr hg base hc).trans (performBy_of_honest hr' hg base hc).symm
  cases hperform : performBy r base g c with
  | ok answer =>
    obtain ⟨a', h'⟩ := answer
    rw [perform_ok hperform] at hrun
    cases hrun
    exact perform_ok (heq ▸ hperform)
  | error e =>
    rw [perform_error hperform] at hrun
    cases hrun
    exact perform_error (heq ▸ hperform)

/-- After a call all references that are known by then are references of nodes. -/
theorem perform_has (s : BareStore r) (hg : g.Sound) (hknown : ∀ node ∈ known, g.Has node)
    (c : TxnCall) (v : View) :
    ∃ (a : Except StoreError c.Answer) (h : Snapshot),
      GraphStore.perform c (s, g) = (a, s, h) ∧ h.Sound ∧
      ∀ node ∈ known ++ Exchange.found ⟨c, a, v⟩, h.Has node := by
  obtain ⟨e, heq⟩ | ⟨a, h, heq, hstep⟩ := perform_cases s g c
  · exact ⟨.error e, g, heq, hg, by simpa using hknown⟩
  · refine ⟨.ok a, h, heq, hstep.sound hg, fun node hnode => ?_⟩
    rcases List.mem_append.1 hnode with hnode | hnode
    · exact hstep.has (hknown node hnode)
    · exact hstep.has_of_found hg v node hnode

theorem performAll_agree (hr : r.Finds) (hr' : r'.Finds) (hg : g.Sound)
    (hknown : ∀ node ∈ known, g.Has node) (cs : List TxnCall)
    (hearned : EarnedIn known (performAll cs ((⟨base⟩ : BareStore r), g)).1) :
    ∃ (exchanges : List Exchange) (h : Snapshot),
      performAll cs ((⟨base⟩ : BareStore r), g) = (exchanges, ⟨base⟩, h) ∧
      performAll cs ((⟨base⟩ : BareStore r'), g) = (exchanges, ⟨base⟩, h) ∧ h.Sound ∧
      ∀ node ∈ known ++ exchanges.flatMap Exchange.found, h.Has node := by
  induction cs generalizing g known with
  | nil => exact ⟨[], g, rfl, rfl, hg, by simpa using hknown⟩
  | cons c cs ih =>
    obtain ⟨a, h, hperform, hh, hknown'⟩ :=
      perform_has (⟨base⟩ : BareStore r) hg hknown c base.view
    simp only [performAll, hperform] at hearned
    obtain ⟨hrefs, hearned⟩ := hearned
    have hc : c.Honest g := TxnCall.honest_of_refs fun node hnode => hknown node (hrefs hnode)
    obtain ⟨exchanges, k, hall, hall', hk, hfound⟩ := ih hh hknown' hearned
    refine ⟨⟨c, a, base.view⟩ :: exchanges, k, ?_, ?_, hk, ?_⟩
    · simp only [performAll, hperform, hall, view_eq]
    · simp only [performAll, perform_agree hr hr' hg hc hperform, hall', view_eq]
    · rwa [List.flatMap_cons, ← List.append_assoc]

theorem run_agree (hr : r.Finds) (hr' : r'.Finds) (hg : g.Sound)
    (hknown : ∀ node ∈ known, g.Has node) {x : Transaction} {trace : Trace} {s : BareStore r}
    (hrun : x.run (⟨g⟩ : BareStore r) = (.ok trace, s))
    (hearned : EarnedIn known trace.exchanges) :
    x.run (⟨g⟩ : BareStore r') = (.ok trace, ⟨s.graph⟩) ∧ s.graph.Sound ∧
      ∀ node ∈ trace.known known, s.graph.Has node := by
  rw [run_eq] at hrun ⊢
  cases hrun
  obtain ⟨exchanges, h, hall, hall', hh, hfound⟩ :=
    performAll_agree hr hr' hg hknown x.calls hearned
  simp only [hall, hall']
  by_cases hending : x.ending = .commit
  · simp only [hending, if_true]
    exact ⟨trivial, hh, hfound⟩
  · simp only [Trace.known, if_neg hending]
    exact ⟨trivial, hg, hknown⟩

theorem runAll_agree (hr : r.Finds) (hr' : r'.Finds) (hg : g.Sound)
    (hknown : ∀ node ∈ known, g.Has node) (xs : List Transaction)
    {traces : List (Except StoreError Trace)} {s : BareStore r}
    (hrun : runAll xs (⟨g⟩ : BareStore r) = (traces, s)) (hearned : Earned known traces) :
    runAll xs (⟨g⟩ : BareStore r') = (traces, ⟨s.graph⟩) := by
  induction xs generalizing g known traces with
  | nil =>
    cases hrun
    rfl
  | cons x xs ih =>
    obtain ⟨trace, s', hx⟩ : ∃ trace s', x.run (⟨g⟩ : BareStore r) = (.ok trace, s') :=
      ⟨_, _, run_eq x _⟩
    rw [runAll, hx] at hrun
    obtain ⟨rfl, hs⟩ := Prod.mk.inj hrun
    obtain ⟨hx', hsound, hknown'⟩ := run_agree hr hr' hg hknown hx hearned.1
    have hrest := ih hsound hknown' (Prod.ext rfl hs) hearned.2
    simp only [runAll, hx', hrest]

end BareStore

/-! ### The two stores -/

/-- However often the durable store is closed and opened again between transactions that pass the
node references they were answered, the store in memory answers every call the same, and shows the
same after it. In tables there is room for `2 ^ 64` bytes. -/
theorem stores_agree {xs : List Transaction} {traces : List (Except StoreError Trace)} {s : Tables}
    (hhistory : History Storage.empty xs traces s)
    (hearned : Earned [] (runAll xs MemoryStore.empty).1) (hfits : Fits (2 ^ 64) 0 xs) :
    traces = (runAll xs MemoryStore.empty).1 ∧
      GraphStore.view s = GraphStore.view (runAll xs MemoryStore.empty).2 ∧
      Storage.Reopens s s := by
  rw [← List.append_nil xs] at hfits
  obtain ⟨g, hbare, hs, _⟩ :=
    hhistory.exists_shows Tables.backend (fun _ => storable_of_size_lt) hfits
  obtain ⟨h, hbare', hmemory, _⟩ := (history_runAll xs MemoryStore.empty).exists_shows
    MemoryStore.backend (fun _ _ => trivial) hfits
  have hagree := BareStore.runAll_agree finds_byNumber finds_byName sound_empty (by simp) xs hbare'
    hearned
  obtain ⟨rfl, hgraph⟩ := Prod.mk.inj (hbare.symm.trans hagree)
  obtain rfl := BareStore.mk.inj hgraph
  refine ⟨rfl, ?_, Tables.Represents.reopens hs⟩
  rw [Tables.backend.view_eq hs, MemoryStore.backend.view_eq hmemory]

/-- A transaction after `linkedPair` that is not committed, and meets every error on its way. -/
def rolledBack : Transaction where
  calls := [.find .path "0", .create .rule "q", .create .path "0",
    .setNode ⟨0, .path, "0"⟩ "formula" "0", .setNode ⟨2, .rule, "q"⟩ "formula" "0",
    .link .hasRule ⟨0, .path, "0"⟩ ⟨2, .rule, "q"⟩, .setEdge 0 "path" "0", .setEdge 1 "path" "0",
    .setEdge 9 "path" "0"]
  ending := .rollback

/-- The number of a node that was not committed is given out again. -/
def numberedAgain : Transaction where
  calls := [.create .path "1", .find .rule "r", .link .hasRule ⟨2, .path, "1"⟩ ⟨1, .rule, "r"⟩]
  ending := .commit

/-- The durable store is closed and opened again after the first transaction. -/
theorem stores_agree_numberedAgain :
    Earned [] (runAll [linkedPair, rolledBack, numberedAgain] MemoryStore.empty).1 ∧
      Fits (2 ^ 64) 0 [linkedPair, rolledBack, numberedAgain] ∧
      ∃ (traces : List (Except StoreError Trace)) (s : Tables),
        History Storage.empty [linkedPair, rolledBack, numberedAgain] traces s ∧
        traces = (runAll [linkedPair, rolledBack, numberedAgain] MemoryStore.empty).1 ∧
        GraphStore.view s = GraphStore.view
          (runAll [linkedPair, rolledBack, numberedAgain] MemoryStore.empty).2 ∧
        Storage.Reopens s s := by
  have hearned :
      Earned [] (runAll [linkedPair, rolledBack, numberedAgain] MemoryStore.empty).1 := by decide
  have hfits : Fits (2 ^ 64) 0 [linkedPair, rolledBack, numberedAgain] := by decide
  have hfirst := history_runAll [linkedPair] Tables.empty
  have hreopens := (stores_agree hfirst (by decide) (by decide)).2.2
  have hhistory := hfirst.append
    (.reopen hreopens (history_runAll [rolledBack, numberedAgain] _))
  exact ⟨hearned, hfits, _, _, hhistory, stores_agree hhistory hearned hfits⟩

end RulePaths
