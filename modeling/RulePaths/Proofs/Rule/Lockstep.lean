import RulePaths.Proofs.Rule.Atomicity

/-!
# Compilations over two stores

A store may be related to another one so that writers get the same answers from both, and what they
leave is related again. A compilation then is answered alike over both stores. All that has to be
shown of the stores is what they do call by call.

A store whose calls never fail is related in this way to the store inside it.

## Main definitions

- `StoreM.Lockstep` — computations over related states have the same answer
- `Compile.InStep` — so have the calls of transactions over related stores

## Main results

- `Compile.InStep.compile` — so have compilations
- `Fallible.compile_mirrors` — a compilation over a store that never fails and over the inner one
-/

namespace RulePaths

/-- The same answer, and related states. -/
def Alike {ρ σ α : Type} (R : ρ → σ → Prop) (p' : α × ρ) (p : α × σ) : Prop :=
  ∃ a s' s, p' = (a, s') ∧ p = (a, s) ∧ R s' s

namespace StoreM

variable {ρ σ α β : Type} {R : ρ → σ → Prop}

/-- From related states two computations come to the same answer and to related states. -/
def Lockstep (R : ρ → σ → Prop) (m' : StoreM ρ α) (m : StoreM σ α) : Prop :=
  ∀ s' s, R s' s → Alike R (m' s') (m s)

namespace Lockstep

theorem pure (a : α) : Lockstep R (pure a : StoreM ρ α) (pure a : StoreM σ α) :=
  fun _ _ h => ⟨_, _, _, rfl, rfl, h⟩

theorem throw (e : StoreError) : Lockstep R (throw e : StoreM ρ α) (throw e : StoreM σ α) :=
  fun _ _ h => ⟨_, _, _, rfl, rfl, h⟩

theorem observe {m' : StoreM ρ α} {m : StoreM σ α} (hm : Lockstep R m' m) :
    Lockstep R (observe m') (observe m) := by
  intro s' s h
  obtain ⟨r, u', u, hrun', hrun, hleft⟩ := hm s' s h
  rw [observe_apply, observe_apply, hrun', hrun]
  exact ⟨_, _, _, rfl, rfl, hleft⟩

theorem bind {m' : StoreM ρ α} {m : StoreM σ α} {f' : α → StoreM ρ β} {f : α → StoreM σ β}
    (hm : Lockstep R m' m) (hf : ∀ a, Lockstep R (f' a) (f a)) :
    Lockstep R (m' >>= f') (m >>= f) := by
  intro s' s h
  obtain ⟨r, u', u, hrun', hrun, hleft⟩ := hm s' s h
  rw [bind_apply, bind_apply, hrun', hrun]
  cases r with
  | error e => exact ⟨_, _, _, rfl, rfl, hleft⟩
  | ok a => exact hf a u' u hleft

theorem mapM {f' : α → StoreM ρ β} {f : α → StoreM σ β} (hf : ∀ a, Lockstep R (f' a) (f a))
    (as : List α) : Lockstep R (as.mapM f') (as.mapM f) := by
  induction as with
  | nil => exact pure []
  | cons a as ih =>
    rw [List.mapM_cons, List.mapM_cons]
    exact (hf a).bind fun b => ih.bind fun bs => pure (b :: bs)

theorem foldlM {f' : β → α → StoreM ρ β} {f : β → α → StoreM σ β}
    (hf : ∀ b a, Lockstep R (f' b a) (f b a)) (b : β) (as : List α) :
    Lockstep R (as.foldlM f' b) (as.foldlM f b) := by
  induction as generalizing b with
  | nil => exact pure b
  | cons a as ih =>
    rw [List.foldlM_cons, List.foldlM_cons]
    exact (hf b a).bind ih

end Lockstep

end StoreM

namespace Compile

open StoreM

variable {ρ υ σ τ : Type} [GraphStore ρ υ] [GraphStore σ τ]

/-- Transactions over stores that `S` relates are answered alike. `W` relates the stores together
with the transactions that are open over them. Nodes need not be found alike, as long as those that
are asked for are found or created alike. -/
structure InStep (S : ρ → σ → Prop) (W : ρ × υ → σ × τ → Prop) : Prop where
  start : ∀ {s' s}, S s' s →
    (∃ e u' u, GraphStore.start s' = (.error e, u') ∧ GraphStore.start s = (.error e, u) ∧
      S u' u) ∨
    ∃ t' u' t u, GraphStore.start s' = (.ok t', u') ∧ GraphStore.start s = (.ok t, u) ∧
      W (u', t') (u, t)
  getOrCreate : ∀ kind key, Lockstep W (getOrCreate kind key) (getOrCreate kind key)
  perform : ∀ c : TxnCall, c.sort ≠ .find → Lockstep W (GraphStore.perform c) (GraphStore.perform c)
  commit : ∀ {s' t' s t}, W (s', t') (s, t) →
    Alike S (GraphStore.commit t' s') (GraphStore.commit t s)
  rollback : ∀ {s' t' s t}, W (s', t') (s, t) →
    Alike S (GraphStore.rollback t' s') (GraphStore.rollback t s)

/-- If all calls of transactions are answered alike, nodes are found or created alike. -/
theorem lockstep_getOrCreate {W : ρ × υ → σ × τ → Prop}
    (hperform : ∀ c : TxnCall, Lockstep W (GraphStore.perform c) (GraphStore.perform c))
    (kind : NodeKind) (key : String) :
    Lockstep W (getOrCreate kind key) (getOrCreate kind key) := by
  unfold getOrCreate
  refine (hperform (.find kind key)).bind fun found => ?_
  cases found with
  | some node => exact .pure (node, false)
  | none =>
    refine (hperform (.create kind key)).observe.bind fun made => ?_
    cases made with
    | ok node => exact .pure (node, true)
    | error e =>
      cases e with
      | alreadyExists _ _ =>
        refine (hperform (.find kind key)).bind fun found => ?_
        cases found with
        | some node => exact .pure (node, false)
        | none => exact .throw _
      | _ => exact .throw _

namespace InStep

variable {S : ρ → σ → Prop} {W : ρ × υ → σ × τ → Prop}

theorem completePath (h : InStep S W) (path : String) (node : NodeRef) :
    Lockstep W (completePath path node) (completePath path node) := by
  unfold Compile.completePath attributesOf
  refine (Lockstep.mapM (h.getOrCreate .attr) _).bind fun attributes => ?_
  cases attributes.head? with
  | none => exact .bind (.pure ()) fun _ => .pure _
  | some lead =>
    refine (h.perform (.link .inPath lead.1 node) nofun).bind fun edge => ?_
    exact (h.perform (.setEdge edge pathProperty path) nofun).bind fun _ => .pure _

theorem linkPath (h : InStep S W) (rule : NodeRef) (c : Creation) (path : String) :
    Lockstep W (linkPath rule c path) (linkPath rule c path) := by
  unfold Compile.linkPath
  refine (h.getOrCreate .path path).bind fun ⟨node, isNew⟩ => ?_
  have hlink := h.perform (.link .hasRule node rule) nofun
  cases isNew with
  | true => exact (h.completePath path node).bind fun _ => hlink.bind fun _ => .pure _
  | false => exact .bind (.pure 0) fun _ => hlink.bind fun _ => .pure _

theorem materialize (h : InStep S W) (id formula : String) (paths : List String) :
    Lockstep W (materialize id formula paths) (materialize id formula paths) := by
  unfold Compile.materialize
  refine (h.perform (.create .rule id) nofun).observe.bind fun made => ?_
  cases made with
  | ok rule =>
    refine (h.perform (.setNode rule formulaProperty formula) nofun).bind fun _ => ?_
    exact (Lockstep.foldlM (h.linkPath rule) _ paths).bind fun c => .pure (some c)
  | error e =>
    cases e with
    | alreadyExists _ _ => exact .pure none
    | _ => exact .throw _

theorem enact (h : InStep S W) (id formula : String) (paths : List String) {s' : ρ} {s : σ}
    (hs : S s' s) : Alike S (enact id formula paths s') (enact id formula paths s) := by
  unfold Compile.enact
  obtain ⟨e, u', u, hrun', hrun, hleft⟩ | ⟨t', u', t, u, hrun', hrun, hw⟩ := h.start hs
  · rw [hrun', hrun]
    exact ⟨_, _, _, rfl, rfl, hleft⟩
  · obtain ⟨r, ⟨v', t₁'⟩, ⟨v, t₁⟩, hmade', hmade, hw₁⟩ := h.materialize id formula paths _ _ hw
    rw [hrun', hrun]
    dsimp only
    rw [hmade', hmade]
    cases r with
    | error e =>
      obtain ⟨_, _, _, hended', hended, hleft⟩ := h.rollback hw₁
      dsimp only
      rw [hended', hended]
      exact ⟨_, _, _, rfl, rfl, hleft⟩
    | ok made =>
      cases made with
      | some c =>
        obtain ⟨r, _, _, hended', hended, hleft⟩ := h.commit hw₁
        dsimp only
        rw [hended', hended]
        cases r <;> exact ⟨_, _, _, rfl, rfl, hleft⟩
      | none =>
        obtain ⟨r, _, _, hended', hended, hleft⟩ := h.rollback hw₁
        dsimp only
        rw [hended', hended]
        cases r <;> exact ⟨_, _, _, rfl, rfl, hleft⟩

theorem compile (h : InStep S W) (m : Minimizer) {id : String}
    (hlookup : Lockstep S (GraphStore.lookup .rule id) (GraphStore.lookup .rule id))
    (formula : String) {s' : ρ} {s : σ} (hs : S s' s) :
    Alike S (compile m id formula s') (compile m id formula s) := by
  rw [compile_apply, compile_apply, prepare_apply, prepare_apply]
  split_ifs
  · exact ⟨_, _, _, rfl, rfl, hs⟩
  · obtain ⟨r, u', u, hrun', hrun, hleft⟩ := hlookup s' s hs
    rw [hrun', hrun]
    cases r with
    | error e => exact ⟨_, _, _, rfl, rfl, hleft⟩
    | ok found =>
      cases found with
      | some node => exact ⟨_, _, _, rfl, rfl, hleft⟩
      | none =>
        dsimp only
        cases m.paths formula with
        | error e => exact ⟨_, _, _, rfl, rfl, hleft⟩
        | ok paths => exact h.enact id formula paths hleft

end InStep

end Compile

/-! ### Stores that never fail -/

namespace Fallible

open StoreM

variable {σ τ α : Type}

/-- No call of the fallible store is fated to fail, and the other store is the one inside. -/
def Mirrors (s' : Fallible σ) (s : σ) : Prop :=
  s'.inner = s ∧ ∀ n, s'.fate n = none

/-- The same transaction is open over both stores. -/
def MirrorsWith (w' : Fallible σ × τ) (w : σ × τ) : Prop :=
  w'.1.Mirrors w.1 ∧ w'.2 = w.2

theorem attempt_passed {s : Fallible σ} (h : s.fate s.calls.length = none) (sort : CallSort)
    (m : StoreM σ α) :
    attempt sort m s =
      ((m s.inner).1, { s with
        inner := (m s.inner).2
        calls := .ofAnswer sort (m s.inner).1 :: s.calls }) := by
  simp only [attempt, h]
  rfl

theorem lockstep_attempt (sort : CallSort) (m : StoreM σ α) :
    Lockstep Mirrors (attempt sort m) m := by
  rintro s' _ ⟨rfl, hfate⟩
  exact ⟨_, _, _, attempt_passed (hfate _) sort m, rfl, rfl, hfate⟩

variable [GraphStore σ τ]

theorem lockstep_perform (c : TxnCall) :
    Lockstep (MirrorsWith (σ := σ)) (GraphStore.perform c) (GraphStore.perform c) := by
  rintro ⟨s', _⟩ ⟨_, t⟩ ⟨⟨rfl, hfate⟩, rfl⟩
  exact ⟨_, _, _, perform_passed (hfate _) c, rfl, ⟨rfl, hfate⟩, rfl⟩

theorem inStep : Compile.InStep (Mirrors (σ := σ)) MirrorsWith where
  start {s' s} h := by
    obtain ⟨r, u', u, hrun', hrun, hleft⟩ := lockstep_attempt .start GraphStore.start s' s h
    cases r with
    | error e => exact .inl ⟨e, u', u, hrun', hrun, hleft⟩
    | ok t => exact .inr ⟨t, u', t, u, hrun', hrun, hleft, rfl⟩
  getOrCreate := Compile.lockstep_getOrCreate lockstep_perform
  perform c _ := lockstep_perform c
  commit := by
    rintro s' t s _ ⟨h, rfl⟩
    exact lockstep_attempt .commit (GraphStore.commit t) s' s h
  rollback := by
    rintro s' t s _ ⟨h, rfl⟩
    exact lockstep_attempt .rollback (GraphStore.rollback t) s' s h

/-- A compilation over a store that never fails is one over the store inside. -/
theorem compile_mirrors (m : Minimizer) (id formula : String) {s' : Fallible σ} {s : σ}
    (h : s'.Mirrors s) : Alike Mirrors (compile m id formula s') (compile m id formula s) :=
  inStep.compile m (lockstep_attempt .lookup _) formula h

end Fallible

end RulePaths
