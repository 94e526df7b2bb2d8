import RulePaths.Graph.MemoryStore
import RulePaths.Graph.TableStore
import RulePaths.Graph.Unreliable

/-!
# Stores any of whose calls may fail

A fallible store passes every call on to the store it contains, unless it is the fate of the call
to fail: then it fails with an error that fate chooses and is not passed on. A transaction whose
commit or rollback fails is forgotten. The store keeps a record of how every call ended, whether
it failed by fate or was refused by the store inside.

Fate tells of every call by its number whether it fails, so it can be any pattern of failures.

## Main definitions

- `Fallible` — a store with a fate and a record of its calls
- `StoreM.Audited` — what a computation inside a transaction adds to the record

## Main results

- `Audited.bind`, `Audited.foldlM`, `Audited.mapM` — audited computations can be put together
-/

namespace RulePaths

namespace StoreM

variable {σ α β : Type}

theorem bind_apply (m : StoreM σ α) (f : α → StoreM σ β) (s : σ) :
    (m >>= f) s =
      match m s with
      | (.ok a, s) => f a s
      | (.error e, s) => (.error e, s) := by
  show (ExceptT.bind m f) s = _
  simp only [ExceptT.bind, ExceptT.mk, bind, StateT.bind]
  cases m s with
  | mk r s => cases r <;> rfl

@[simp] theorem throw_apply (e : StoreError) (s : σ) :
    (throw e : StoreM σ α) s = (.error e, s) :=
  rfl

@[simp] theorem observe_apply (m : StoreM σ α) (s : σ) :
    observe m s = (.ok (m s).1, (m s).2) :=
  rfl

end StoreM

/-! ### The record of calls -/

/-- How a call of a store ended: its sort, and the error if it failed. -/
structure CallOutcome where
  sort : CallSort
  failure : Option StoreError
deriving DecidableEq, Inhabited

/-- Calls that are made while a transaction is open. -/
def CallSort.isStep : CallSort → Bool
  | .find | .create | .setNode | .link | .setEdge => true
  | .start | .lookup | .snapshot | .commit | .rollback => false

namespace CallOutcome

/-- What a call that answered `r` adds to the record. -/
def ofAnswer {α : Type} (sort : CallSort) : Except StoreError α → CallOutcome
  | .ok _ => ⟨sort, none⟩
  | .error e => ⟨sort, some e⟩

@[simp] theorem sort_ofAnswer {α : Type} (sort : CallSort) (r : Except StoreError α) :
    (ofAnswer sort r).sort = sort := by
  cases r <;> rfl

/-- A creation that failed because the node exists: the sign of a lost race. -/
def LostRace (c : CallOutcome) : Prop :=
  c.sort = .create ∧ ∃ kind key, c.failure = some (.alreadyExists kind key)

end CallOutcome

/-- A store whose calls fail as fate decides, with the record of the calls, the latest first. -/
structure Fallible (σ : Type) where
  inner : σ
  /-- The error with which the call of a number fails by itself, counted from zero. -/
  fate : Nat → Option StoreError
  calls : List CallOutcome

namespace Fallible

variable {σ τ α : Type}

/-- A call passed on to the inner store unless it is its fate to fail. -/
def attempt (sort : CallSort) (m : StoreM σ α) : StoreM (Fallible σ) α := fun s =>
  match s.fate s.calls.length with
  | some e => (.error e, { s with calls := ⟨sort, some e⟩ :: s.calls })
  | none =>
    let (r, inner) := m s.inner
    (r, { s with inner, calls := .ofAnswer sort r :: s.calls })

/-- A call of a transaction passed on unless it is its fate to fail. -/
def attemptWith (sort : CallSort) (m : StoreM (σ × τ) α) : StoreM (Fallible σ × τ) α :=
    fun (s, t) =>
  match s.fate s.calls.length with
  | some e => (.error e, { s with calls := ⟨sort, some e⟩ :: s.calls }, t)
  | none =>
    let (r, inner, t) := m (s.inner, t)
    (r, { s with inner, calls := .ofAnswer sort r :: s.calls }, t)

instance [GraphStore σ τ] : GraphStore (Fallible σ) τ where
  lookup kind key := attempt .lookup (GraphStore.lookup kind key)
  snapshot := attempt .snapshot GraphStore.snapshot
  start := attempt .start GraphStore.start
  perform c := attemptWith c.sort (GraphStore.perform c)
  commit t := attempt .commit (GraphStore.commit t)
  rollback t := attempt .rollback (GraphStore.rollback t)

/-- The second store comes after the first one, and nothing was committed in between. -/
structure Continues (s s' : Fallible σ) : Prop where
  inner : s'.inner = s.inner
  fate : s'.fate = s.fate
  calls : s.calls.length ≤ s'.calls.length

theorem Continues.refl (s : Fallible σ) : s.Continues s :=
  ⟨rfl, rfl, Nat.le_refl _⟩

theorem Continues.trans {s s' s'' : Fallible σ} (h : s.Continues s') (h' : s'.Continues s'') :
    s.Continues s'' :=
  ⟨h'.inner.trans h.inner, h'.fate.trans h.fate, Nat.le_trans h.calls h'.calls⟩

theorem continues_calls (s : Fallible σ) (c : CallOutcome) :
    s.Continues { s with calls := c :: s.calls } :=
  ⟨rfl, rfl, Nat.le_succ _⟩

end Fallible

/-! ### What is committed -/

/-- Calls that do not commit leave all that is committed as it is. -/
structure KeepsCommitted (σ : Type) {τ : Type} [GraphStore σ τ] : Prop where
  lookup : ∀ kind key (s : σ), (GraphStore.lookup kind key s).2 = s
  start : ∀ s : σ, (GraphStore.start s).2 = s
  perform : ∀ c (w : σ × τ), (GraphStore.perform c w).2.1 = w.1
  rollback : ∀ t (s : σ), (GraphStore.rollback t s).2 = s
  commit : ∀ t (s : σ) e, (GraphStore.commit t s).1 = .error e → (GraphStore.commit t s).2 = s

theorem MemoryStore.keepsCommitted : KeepsCommitted MemoryStore where
  lookup _ _ _ := rfl
  start _ := rfl
  perform c w := by
    dsimp only [GraphStore.perform]
    split <;> rfl
  rollback _ _ := rfl
  commit _ _ _ h := nomatch h

theorem Tables.keepsCommitted : KeepsCommitted Tables where
  lookup _ _ _ := rfl
  start _ := rfl
  perform c w := by
    dsimp only [GraphStore.perform]
    split <;> rfl
  rollback _ _ := rfl
  commit _ _ _ h := nomatch h

/-! ### Audited calls -/

/-- The outcomes of calls of which the one that failed, a lost race apart, is what `r` reports. -/
def Reports {α : Type} (made : List CallOutcome) (r : Except StoreError α) : Prop :=
  ∀ c ∈ made, ∀ e, c.failure = some e → c.LostRace ∨ r = .error e

/-- A call outside of a transaction that changes nothing committed if it fails, and that adds
its own outcome to the record. -/
def Fallible.Logs {σ α : Type} (sort : CallSort) (m : StoreM (Fallible σ) α) : Prop :=
  ∀ s, (m s).2.calls = .ofAnswer sort (m s).1 :: s.calls

theorem Fallible.logs_attempt {σ α : Type} (sort : CallSort) (m : StoreM σ α) :
    Logs sort (attempt sort m) := by
  intro s
  unfold attempt
  split <;> rfl

theorem Fallible.fate_attempt {σ α : Type} (sort : CallSort) (m : StoreM σ α) (s : Fallible σ) :
    (attempt sort m s).2.fate = s.fate := by
  unfold attempt
  split <;> rfl

theorem Fallible.continues_attempt {σ α : Type} (sort : CallSort) {m : StoreM σ α} {s : Fallible σ}
    (h : (m s.inner).2 = s.inner) : s.Continues (attempt sort m s).2 := by
  unfold attempt
  split
  · exact continues_calls s _
  · exact ⟨h, rfl, Nat.le_succ _⟩

theorem Fallible.continues_attempt_of_error {σ α : Type} {sort : CallSort} {m : StoreM σ α}
    {s : Fallible σ} {e : StoreError} (hm : ∀ e, (m s.inner).1 = .error e → (m s.inner).2 = s.inner)
    (h : (attempt sort m s).1 = .error e) : s.Continues (attempt sort m s).2 := by
  unfold attempt at h ⊢
  split at h
  · exact continues_calls s _
  · exact ⟨hm e h, rfl, Nat.le_succ _⟩

namespace StoreM

variable {σ τ α β : Type}

/-- A computation inside a transaction that leaves what is committed, that records steps of the
transaction only, and that fails with the error of the step that failed, if a step failed
otherwise than by a lost race. -/
def Audited (m : StoreM (Fallible σ × τ) α) : Prop :=
  ∀ w, w.1.Continues (m w).2.1 ∧
    ∃ made, (m w).2.1.calls = made ++ w.1.calls ∧ (∀ c ∈ made, c.sort.isStep = true) ∧
      Reports made (m w).1

namespace Audited

theorem pure (a : α) : Audited (pure a : StoreM (Fallible σ × τ) α) :=
  fun w => ⟨.refl w.1, [], rfl, by simp, by simp [Reports]⟩

theorem throw (e : StoreError) : Audited (throw e : StoreM (Fallible σ × τ) α) :=
  fun w => ⟨.refl w.1, [], rfl, by simp, by simp [Reports]⟩

theorem bind {m : StoreM (Fallible σ × τ) α} {f : α → StoreM (Fallible σ × τ) β}
    (hm : Audited m) (hf : ∀ a, Audited (f a)) : Audited (m >>= f) := by
  intro w
  obtain ⟨hnext, made, hcalls, hsteps, hreports⟩ := hm w
  rw [bind_apply]
  cases hrun : m w with
  | mk r w' =>
    rw [hrun] at hnext hcalls hreports
    cases r with
    | error e => exact ⟨hnext, made, hcalls, hsteps, by simpa [Reports] using hreports⟩
    | ok a =>
      obtain ⟨hnext', made', hcalls', hsteps', hreports'⟩ := hf a w'
      refine ⟨hnext.trans hnext', made' ++ made, ?_, ?_, ?_⟩
      · rw [hcalls', hcalls, List.append_assoc]
      · intro c hc
        exact (List.mem_append.1 hc).elim (hsteps' c) (hsteps c)
      · -- what was made before `f` can only have failed by lost races
        intro c hc e he
        rcases List.mem_append.1 hc with hc | hc
        · exact hreports' c hc e he
        · rcases hreports c hc e he with hrace | hfail
          · exact .inl hrace
          · cases hfail

theorem mapM {f : α → StoreM (Fallible σ × τ) β} (hf : ∀ a, Audited (f a)) (as : List α) :
    Audited (as.mapM f) := by
  induction as with
  | nil => exact pure []
  | cons a as ih =>
    rw [List.mapM_cons]
    exact (hf a).bind fun b => ih.bind fun bs => pure (b :: bs)

theorem foldlM {f : β → α → StoreM (Fallible σ × τ) β} (hf : ∀ b a, Audited (f b a)) (b : β)
    (as : List α) : Audited (as.foldlM f b) := by
  induction as generalizing b with
  | nil => exact pure b
  | cons a as ih =>
    rw [List.foldlM_cons]
    exact (hf b a).bind ih

end Audited

end StoreM

namespace Fallible

open StoreM

variable {σ τ α : Type} [GraphStore σ τ]

theorem isStep_sort (c : TxnCall) : c.sort.isStep = true := by
  cases c <;> rfl

theorem perform_failed {w : Fallible σ × τ} {e : StoreError}
    (h : w.1.fate w.1.calls.length = some e) (c : TxnCall) :
    GraphStore.perform c w =
      (.error e, { w.1 with calls := ⟨c.sort, some e⟩ :: w.1.calls }, w.2) := by
  show attemptWith c.sort (GraphStore.perform c) w = _
  simp only [attemptWith, h]

theorem perform_passed {w : Fallible σ × τ} (h : w.1.fate w.1.calls.length = none)
    (c : TxnCall) :
    GraphStore.perform c w =
      ((GraphStore.perform c (w.1.inner, w.2)).1,
        { w.1 with
          inner := (GraphStore.perform c (w.1.inner, w.2)).2.1
          calls := .ofAnswer c.sort (GraphStore.perform c (w.1.inner, w.2)).1 :: w.1.calls },
        (GraphStore.perform c (w.1.inner, w.2)).2.2) := by
  show attemptWith c.sort (GraphStore.perform c) w = _
  simp only [attemptWith, h]
  rfl

theorem calls_perform (c : TxnCall) (w : Fallible σ × τ) :
    (GraphStore.perform c w).2.1.calls =
      .ofAnswer c.sort (GraphStore.perform c w).1 :: w.1.calls := by
  cases h : w.1.fate w.1.calls.length with
  | some e => rw [perform_failed h]; rfl
  | none => rw [perform_passed h]

theorem continues_perform (hkeeps : KeepsCommitted σ) (c : TxnCall) (w : Fallible σ × τ) :
    w.1.Continues (GraphStore.perform c w).2.1 := by
  cases h : w.1.fate w.1.calls.length with
  | some e =>
    rw [perform_failed h]
    exact continues_calls w.1 _
  | none =>
    rw [perform_passed h]
    exact ⟨hkeeps.perform c (w.1.inner, w.2), rfl, Nat.le_succ _⟩

theorem audited_perform (hkeeps : KeepsCommitted σ) (c : TxnCall) :
    Audited (GraphStore.perform c : StoreM (Fallible σ × τ) c.Answer) := by
  intro w
  refine ⟨continues_perform hkeeps c w, [_], calls_perform c w, ?_, ?_⟩
  · simp [isStep_sort]
  · intro o ho e he
    obtain rfl := List.mem_singleton.1 ho
    right
    cases hr : (GraphStore.perform c w).1 with
    | ok a => simp [hr, CallOutcome.ofAnswer] at he
    | error e' => simpa [hr, CallOutcome.ofAnswer] using he

/-- A creation whose failure is looked at. A failure that is no lost race has to be passed on. -/
theorem audited_observe_create (hkeeps : KeepsCommitted σ) {kind : NodeKind} {key : String}
    {f : Except StoreError NodeRef → StoreM (Fallible σ × τ) α}
    (hok : ∀ node, Audited (f (.ok node)))
    (hrace : ∀ kind key, Audited (f (.error (.alreadyExists kind key))))
    (herror : ∀ e, (∀ kind key, e ≠ .alreadyExists kind key) → f (.error e) = throw e) :
    Audited (observe (GraphStore.perform (.create kind key)) >>= f) := by
  intro w
  rw [bind_apply, observe_apply]
  obtain ⟨hnext, made, hcalls, hsteps, hreports⟩ := audited_perform hkeeps (.create kind key) w
  have hmade : made = [.ofAnswer .create (GraphStore.perform (.create kind key) w).1] :=
    List.append_cancel_right (hcalls.symm.trans (calls_perform _ w))
  -- what the rest adds comes on top of the outcome of the creation
  have hafter : ∀ r, (GraphStore.perform (.create kind key) w).1 = r → Audited (f r) →
      (∀ o ∈ made, o.failure = none ∨ o.LostRace) →
      w.1.Continues (f r (GraphStore.perform (.create kind key) w).2).2.1 ∧
        ∃ made, (f r (GraphStore.perform (.create kind key) w).2).2.1.calls = made ++ w.1.calls ∧
          (∀ c ∈ made, c.sort.isStep = true) ∧
          Reports made (f r (GraphStore.perform (.create kind key) w).2).1 := by
    intro r _ haudited hexcused
    obtain ⟨hnext', made', hcalls', hsteps', hreports'⟩ :=
      haudited (GraphStore.perform (.create kind key) w).2
    refine ⟨hnext.trans hnext', made' ++ made, ?_, ?_, ?_⟩
    · rw [hcalls', hcalls, List.append_assoc]
    · intro c hc
      exact (List.mem_append.1 hc).elim (hsteps' c) (hsteps c)
    · intro c hc e he
      rcases List.mem_append.1 hc with hc | hc
      · exact hreports' c hc e he
      · rcases hexcused c hc with hnone | hlost
        · simp [hnone] at he
        · exact .inl hlost
  cases hr : (GraphStore.perform (.create kind key) w).1 with
  | ok node =>
    refine hafter _ hr (hok node) ?_
    simp [hmade, hr, CallOutcome.ofAnswer]
  | error e =>
    by_cases he : ∃ kind key, e = .alreadyExists kind key
    · obtain ⟨kind', key', rfl⟩ := he
      refine hafter _ hr (hrace kind' key') ?_
      simp [hmade, hr, CallOutcome.ofAnswer, CallOutcome.LostRace]
    · have he : ∀ kind key, e ≠ .alreadyExists kind key := by simpa using he
      rw [hr] at hreports
      dsimp only
      rw [herror e he]
      exact ⟨hnext, made, hcalls, hsteps, by simpa [Reports] using hreports⟩

end Fallible

end RulePaths
