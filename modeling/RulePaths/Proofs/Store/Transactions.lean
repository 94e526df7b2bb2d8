import RulePaths.Proofs.Graph.Size
import RulePaths.Proofs.Store.Backend

/-!
# Transactions from their beginning to their end

A transaction is a sequence of calls, which may fail and after which it goes on all the same, and an
ending: it is committed, rolled back or dropped. Its trace says what it was answered, and what the
store showed of its committed graph when the transaction began, after each of its calls and after
its end. Between two transactions a store may be closed and opened again.

What the calls of a transaction ask for says how large the graph can become, whatever they are
answered.

## Main definitions

- `GraphStore.view` — what a store shows of its committed graph
- `Transaction.run` — a transaction on a store, with its trace
- `History` — transactions one after the other, from one store to another
- `Fits` — transactions that never ask for more than a number of bytes
-/

namespace RulePaths

open Snapshot

/-! ### What a store shows -/

/-- What is read from a store outside of transactions. -/
structure View where
  lookup : NodeKind → String → Except StoreError (Option NodeRecord)
  snapshot : Except StoreError Snapshot
  counts : Except StoreError Counts

/-- What is read from a store that holds the graph. -/
def Snapshot.view (g : Snapshot) : View where
  lookup kind key := .ok (g.node? kind key)
  snapshot := .ok g
  counts := .ok g.counts

/-- What is read from a store. -/
def GraphStore.view {σ τ : Type} [GraphStore σ τ] (s : σ) : View where
  lookup kind key := (GraphStore.lookup kind key s).1
  snapshot := (GraphStore.snapshot s).1
  counts := (GraphStore.counts s).1

/-! ### Transactions -/

/-- How a transaction ends. -/
inductive Ending where
  | commit
  | rollback
  /-- Without any call: the transaction is just no longer there. -/
  | drop
deriving DecidableEq, Inhabited

/-- All that a transaction asks of a store. -/
structure Transaction where
  calls : List TxnCall
  ending : Ending
deriving DecidableEq, Inhabited

/-- A call of a transaction, the answer, and what is read from the store after it. -/
structure Exchange where
  call : TxnCall
  answer : Except StoreError call.Answer
  view : View

/-- All that a transaction is answered, and what is read from the store when the transaction has
begun, after each of its calls and after its end. -/
structure Trace where
  begun : View
  exchanges : List Exchange
  ending : Ending
  ended : Except StoreError Unit
  after : View

section

variable {σ τ : Type} [GraphStore σ τ]

/-- The end of a transaction. -/
def Ending.apply (ending : Ending) (t : τ) : StoreM σ Unit :=
  match ending with
  | .commit => GraphStore.commit t
  | .rollback => GraphStore.rollback t
  | .drop => pure ()

/-- The calls of an open transaction, one after the other. -/
def performAll : List TxnCall → σ × τ → List Exchange × (σ × τ)
  | [], w => ([], w)
  | c :: cs, w =>
    let called := GraphStore.perform c w
    let rest := performAll cs called.2
    (⟨c, called.1, GraphStore.view called.2.1⟩ :: rest.1, rest.2)

/-- A transaction on a store, unless it cannot be started. -/
def Transaction.run (x : Transaction) (s : σ) : Except StoreError Trace × σ :=
  match GraphStore.start s with
  | (.error e, s) => (.error e, s)
  | (.ok t, s) =>
    let called := performAll x.calls (s, t)
    let ended := x.ending.apply called.2.2 called.2.1
    (.ok ⟨GraphStore.view s, called.1, x.ending, ended.1, GraphStore.view ended.2⟩, ended.2)

/-- Transactions on a store, one after the other. -/
def runAll : List Transaction → σ → List (Except StoreError Trace) × σ
  | [], s => ([], s)
  | x :: xs, s =>
    let ran := x.run s
    let rest := runAll xs ran.2
    (ran.1 :: rest.1, rest.2)

/-- From the first store the transactions lead to the last one, with the given traces. In between
the store may be closed and opened again. -/
inductive History [Storage σ] : σ → List Transaction → List (Except StoreError Trace) → σ → Prop
  | nil (s : σ) : History s [] [] s
  | run {s s' s'' : σ} {x : Transaction} {trace : Except StoreError Trace} {xs : List Transaction}
    {traces : List (Except StoreError Trace)} (hrun : x.run s = (trace, s'))
    (hrest : History s' xs traces s'') : History s (x :: xs) (trace :: traces) s''
  | reopen {s s' s'' : σ} {xs : List Transaction} {traces : List (Except StoreError Trace)}
    (hreopens : Storage.Reopens s s') (hrest : History s' xs traces s'') :
    History s xs traces s''

theorem history_runAll [Storage σ] (xs : List Transaction) (s : σ) :
    History s xs (runAll xs s).1 (runAll xs s).2 := by
  induction xs generalizing s with
  | nil => exact .nil s
  | cons x xs ih => exact .run rfl (ih _)

theorem History.append [Storage σ] {s s' s'' : σ} {xs ys : List Transaction}
    {traces traces' : List (Except StoreError Trace)} (hxs : History s xs traces s')
    (hys : History s' ys traces' s'') : History s (xs ++ ys) (traces ++ traces') s'' := by
  induction hxs with
  | nil => exact hys
  | run hrun _ ih => exact .run hrun (ih hys)
  | reopen hreopens _ ih => exact .reopen hreopens (ih hys)

end

/-! ### How much is asked for -/

/-- How many bytes calls can add to the graph. -/
def callsSize (cs : List TxnCall) : Nat :=
  (cs.map TxnCall.size).sum

@[simp] theorem callsSize_nil : callsSize [] = 0 :=
  rfl

@[simp] theorem callsSize_cons (c : TxnCall) (cs : List TxnCall) :
    callsSize (c :: cs) = c.size + callsSize cs :=
  rfl

/-- How many bytes a transaction can leave in the graph. -/
def Transaction.kept (x : Transaction) : Nat :=
  if x.ending = .commit then callsSize x.calls else 0

/-- At no time do the transactions ask for as much as `limit` bytes, of which `stored` are there
from the beginning. -/
def Fits (limit : Nat) : (stored : Nat) → List Transaction → Prop
  | stored, [] => stored < limit
  | stored, x :: xs =>
    stored + callsSize x.calls < limit ∧ Fits limit (stored + x.kept) xs

instance Fits.decidable (limit : Nat) :
    (stored : Nat) → (xs : List Transaction) → Decidable (Fits limit stored xs)
  | stored, [] => inferInstanceAs (Decidable (stored < limit))
  | stored, x :: xs =>
    have := Fits.decidable limit (stored + x.kept) xs
    inferInstanceAs (Decidable (stored + callsSize x.calls < limit ∧ _))

namespace Fits

variable {limit limit' stored stored' : Nat} {xs ys : List Transaction}

theorem mono (h : Fits limit stored xs) (hlimit : limit ≤ limit') (hstored : stored' ≤ stored) :
    Fits limit' stored' xs := by
  induction xs generalizing stored stored' with
  | nil =>
    simp only [Fits] at h ⊢
    omega
  | cons x xs ih =>
    obtain ⟨hx, hxs⟩ := h
    exact ⟨by omega, ih hxs (by omega)⟩

/-- Whatever transactions ask for, there is a limit to it. -/
theorem exists_fits (stored : Nat) (xs : List Transaction) : ∃ limit, Fits limit stored xs := by
  induction xs generalizing stored with
  | nil => exact ⟨stored + 1, Nat.lt_succ_self stored⟩
  | cons x xs ih =>
    obtain ⟨limit, hlimit⟩ := ih (stored + x.kept)
    exact ⟨limit + (stored + callsSize x.calls + 1), by omega,
      hlimit.mono (Nat.le_add_right _ _) (Nat.le_refl _)⟩

end Fits

/-! ### Two transactions -/

/-- A path and a rule with an edge from one to the other. -/
def linkedPair : Transaction where
  calls := [.create .path "0", .create .rule "r",
    .link .hasRule ⟨0, .path, "0"⟩ ⟨1, .rule, "r"⟩]
  ending := .commit

/-- Calls after `linkedPair` with references whose number is not that of their name, among them the
numbers of committed nodes under the names of new ones, and with numbers of no edge. -/
def forgedCalls : Transaction where
  calls := [.setNode ⟨7, .rule, "r"⟩ "formula" "0", .create .path "1", .create .path "1",
    .setNode ⟨0, .path, "1"⟩ "formula" "1", .setNode ⟨2, .path, "0"⟩ "formula" "2",
    .link .hasRule ⟨0, .attr, ""⟩ ⟨2, .rule, "r"⟩, .link .inPath ⟨8, .path, "0"⟩ ⟨1, .rule, "r"⟩,
    .setEdge 0 "path" "0", .setEdge 1 "path" "1", .setEdge 5 "path" "2"]
  ending := .commit

end RulePaths
