import RulePaths.Proofs.Store.Fallible
import RulePaths.Rule.Compile
import Mathlib.Tactic.SplitIfs

/-!
# A rule is compiled as a whole or not at all

Whichever calls of a compilation fail, and whatever the store holds, a compilation that does not
create its rule leaves the store as it is. It is acknowledged only if none of its calls failed, and
a step of the transaction that fails is what is reported, whether or not the rollback fails too.

The exception is a creation that fails because the node exists. Some other writer was faster then,
which is no failure.

## Main definitions

- `Compile.Atomic` — what one compilation guarantees
- `Compile.CompilesAtomically` — every compilation over a type of stores guarantees it

## Main results

- `Compile.compile_atomic` — both stores compile atomically, with any failures
-/

namespace RulePaths

namespace Compile

open StoreM Fallible

variable {σ τ : Type} [GraphStore σ τ]

/-! ### The two steps -/

theorem compile_apply (m : Minimizer) (id formula : String) (s : σ) :
    compile m id formula s =
      match prepare m id formula s with
      | (.settled answer, s) => (answer, s)
      | (.write paths, s) => enact id formula paths s := by
  simp only [compile, bind, StateT.bind]
  cases prepare m id formula s with
  | mk plan s => cases plan <;> rfl

theorem prepare_apply (m : Minimizer) (id formula : String) (s : σ) :
    prepare m id formula s =
      if Blank.isBlankText id then (.settled (.error (.rule .emptyId)), s)
      else
        match GraphStore.lookup .rule id s with
        | (.error e, s) => (.settled (.error (.store e)), s)
        | (.ok (some _), s) => (.settled (.ok (.duplicate id)), s)
        | (.ok none, s) =>
          (match m.paths formula with
            | .error e => .settled (.error (.formula e))
            | .ok paths => .write paths, s) := by
  unfold prepare
  by_cases h : Blank.isBlankText id
  · simp only [h, if_true]
    rfl
  · simp only [h, Bool.false_eq_true, if_false, bind, StateT.bind, ExceptT.run]
    cases GraphStore.lookup NodeKind.rule id s with
    | mk r s =>
      cases r with
      | error e => rfl
      | ok found =>
        cases found with
        | some node => rfl
        | none =>
          dsimp only [bind, Id.run]
          cases m.paths formula <;> rfl

/-! ### The calls of the transaction -/

section

variable (hkeeps : KeepsCommitted σ)
include hkeeps

theorem audited_getOrCreate (kind : NodeKind) (key : String) :
    Audited (getOrCreate (σ := Fallible σ) (τ := τ) kind key) := by
  unfold getOrCreate
  refine (audited_perform hkeeps (.find kind key)).bind fun found => ?_
  cases found with
  | some node => exact .pure (node, false)
  | none =>
    refine audited_observe_create hkeeps (fun node => .pure (node, true)) (fun _ _ => ?_) ?_
    · refine (audited_perform hkeeps (.find kind key)).bind fun found => ?_
      cases found with
      | some node => exact .pure (node, false)
      | none => exact .throw _
    · intro e he
      cases e with
      | alreadyExists kind key => exact absurd rfl (he kind key)
      | _ => rfl

theorem audited_completePath (path : String) (node : NodeRef) :
    Audited (completePath (σ := Fallible σ) (τ := τ) path node) := by
  unfold completePath attributesOf
  refine (Audited.mapM (audited_getOrCreate hkeeps .attr) _).bind fun attributes => ?_
  cases attributes.head? with
  | none => exact .bind (.pure ()) fun _ => .pure _
  | some lead =>
    refine (audited_perform hkeeps (.link .inPath lead.1 node)).bind fun edge => ?_
    exact (audited_perform hkeeps (.setEdge edge pathProperty path)).bind fun _ => .pure _

theorem audited_linkPath (rule : NodeRef) (c : Creation) (path : String) :
    Audited (linkPath (σ := Fallible σ) (τ := τ) rule c path) := by
  unfold linkPath
  refine (audited_getOrCreate hkeeps .path path).bind fun found => ?_
  have hlink : ∀ n, Audited (do
      let _ ← GraphStore.perform (σ := Fallible σ) (τ := τ) (.link .hasRule found.1 rule)
      return (⟨c.paths + 1, c.newPaths + found.2.toNat, c.newAttributes + n⟩ : Creation)) :=
    fun n => (audited_perform hkeeps (.link .hasRule found.1 rule)).bind fun _ => .pure _
  obtain ⟨node, isNew⟩ := found
  cases isNew with
  | true => exact (audited_completePath hkeeps path node).bind hlink
  | false => exact Audited.bind (.pure 0) hlink

theorem audited_materialize (id formula : String) (paths : List String) :
    Audited (materialize (σ := Fallible σ) (τ := τ) id formula paths) := by
  unfold materialize
  refine audited_observe_create hkeeps (fun rule => ?_) (fun _ _ => .pure none) ?_
  · refine (audited_perform hkeeps (.setNode rule formulaProperty formula)).bind fun _ => ?_
    exact (Audited.foldlM (audited_linkPath hkeeps rule) _ paths).bind fun c => .pure (some c)
  · intro e he
    cases e with
    | alreadyExists kind key => exact absurd rfl (he kind key)
    | _ => rfl

end

/-! ### The whole compilation -/

/-- What a compilation guarantees that starts in the store `s` and ends with the answer and the
store of `out`: `made` are the calls that it made. -/
structure Atomic (s : Fallible σ) (out : Except Failure Acknowledgment × Fallible σ)
    (made : List CallOutcome) : Prop where
  calls : out.2.calls = made ++ s.calls
  fate : out.2.fate = s.fate
  /-- After an error, or if nothing was to be done, all that is committed is as it was. -/
  unchanged : (∀ a, out.1 = .ok a → a.isNoop = true) → out.2.inner = s.inner
  /-- An acknowledgment means that no call failed, lost races apart. -/
  excused : ∀ a, out.1 = .ok a → ∀ c ∈ made, c.failure = none ∨ c.LostRace
  /-- The error of a step of the transaction is the one that is reported. -/
  reported : ∀ c ∈ made, c.sort.isStep = true → ∀ e, c.failure = some e →
    c.LostRace ∨ out.1 = .error (.store e)

namespace Atomic

variable {s s₁ : Fallible σ} {out : Except Failure Acknowledgment × Fallible σ}
  {made : List CallOutcome}

/-- Nothing was called. -/
theorem refl (r : Except Failure Acknowledgment) : Atomic s (r, s) [] where
  calls := rfl
  fate := rfl
  unchanged _ := rfl
  excused _ _ _ h := nomatch h
  reported _ h := nomatch h

/-- A call that did not fail, made before the rest of a compilation. -/
theorem cons {sort : CallSort} (hcalls : s₁.calls = ⟨sort, none⟩ :: s.calls)
    (hnext : s.Continues s₁) (h : ∃ made, Atomic s₁ out made) : ∃ made, Atomic s out made := by
  obtain ⟨made, h⟩ := h
  refine ⟨made ++ [⟨sort, none⟩], ?_, h.fate.trans hnext.fate,
    fun hr => (h.unchanged hr).trans hnext.inner, ?_, ?_⟩
  · rw [h.calls, hcalls, List.append_assoc]
    rfl
  · intro a ha c hc
    rcases List.mem_append.1 hc with hc | hc
    · exact h.excused a ha c hc
    · obtain rfl := List.mem_singleton.1 hc
      exact .inl rfl
  · intro c hc hstep e he
    rcases List.mem_append.1 hc with hc | hc
    · exact h.reported c hc hstep e he
    · obtain rfl := List.mem_singleton.1 hc
      cases he

/-- The steps of a transaction and then the call that ends it. Only if all of them succeed, and
the last call too, is there an acknowledgment. -/
theorem of_steps {α : Type} {written : Except StoreError α} {last : CallOutcome}
    (hfate : out.2.fate = s.fate) (hcalls : s₁.calls = made ++ s.calls)
    (hreports : Reports made written)
    (hlast : out.2.calls = last :: s₁.calls) (hsort : last.sort.isStep = false)
    (hok : ∀ a, out.1 = .ok a → last.failure = none ∧ ∃ x, written = .ok x)
    (herror : ∀ e, written = .error e → out.1 = .error (.store e))
    (hinner : (∀ a, out.1 = .ok a → a.isNoop = true) → out.2.inner = s.inner) :
    Atomic s out (last :: made) where
  calls := by rw [hlast, hcalls]; rfl
  fate := hfate
  unchanged := hinner
  excused a ha c hc := by
    obtain ⟨hnone, x, rfl⟩ := hok a ha
    rcases List.mem_cons.1 hc with rfl | hc
    · exact .inl hnone
    · cases he : c.failure with
      | none => exact .inl rfl
      | some e =>
        rcases hreports c hc e he with hrace | hfail
        · exact .inr hrace
        · cases hfail
  reported c hc hstep e he := by
    rcases List.mem_cons.1 hc with rfl | hc
    · exact absurd hstep (by simp [hsort])
    · exact (hreports c hc e he).imp id (herror e)

/-- A compilation that ends with one failing call that is no step of the transaction. -/
theorem failed {sort : CallSort} {e : StoreError} (hsort : sort.isStep = false)
    (hcalls : s₁.calls = ⟨sort, some e⟩ :: s.calls) (hnext : s.Continues s₁) :
    Atomic s (.error (.store e), s₁) [⟨sort, some e⟩] :=
  have hnone : Reports [] (.ok () : Except StoreError Unit) := by simp [Reports]
  of_steps hnext.fate s.calls.nil_append.symm hnone hcalls hsort (fun _ h => nomatch h)
    (fun _ h => nomatch h) fun _ => hnext.inner

end Atomic

section

variable (hkeeps : KeepsCommitted σ)
include hkeeps

/-- A transaction whose steps all succeeded is committed. -/
theorem commit_atomic (formula : String) (c : Creation) {t : τ} {s s' s₁ : Fallible σ}
    {made : List CallOutcome} (hnext : s.Continues s') (hcalls : s'.calls = made ++ s.calls)
    (hreports : Reports made (.ok (some c) : Except StoreError (Option Creation)))
    {r : Except StoreError Unit} (h : GraphStore.commit t s' = (r, s₁)) :
    ∃ made, Atomic s ((r.mapError Failure.store).map fun _ => .created formula c, s₁) made := by
  change attempt .commit (GraphStore.commit t) s' = _ at h
  have hcommit := logs_attempt .commit (GraphStore.commit t : StoreM σ Unit) s'
  cases r with
  | ok _ =>
    have hfate := fate_attempt .commit (GraphStore.commit t : StoreM σ Unit) s'
    rw [h] at hcommit hfate
    refine ⟨_, .of_steps (hfate.trans hnext.fate) hcalls hreports hcommit rfl
      (fun _ _ => ⟨rfl, _, rfl⟩) (fun _ h => nomatch h) fun h => ?_⟩
    exact absurd (h _ rfl) (by simp [Acknowledgment.isNoop, Acknowledgment.created])
  | error e =>
    have hcommitNext := hnext.trans
      (continues_attempt_of_error (hkeeps.commit t s'.inner) (congrArg Prod.fst h))
    rw [h] at hcommit hcommitNext
    exact ⟨_, .of_steps hcommitNext.fate hcalls hreports hcommit rfl (fun _ h => nomatch h)
      (fun _ h => nomatch h) fun _ => hcommitNext.inner⟩

/-- A transaction that lost the race for its rule is rolled back. -/
theorem rollback_atomic (id : String) {t : τ} {s s' s₁ : Fallible σ} {made : List CallOutcome}
    (hnext : s.Continues s') (hcalls : s'.calls = made ++ s.calls)
    (hreports : Reports made (.ok none : Except StoreError (Option Creation)))
    {r : Except StoreError Unit} (h : GraphStore.rollback t s' = (r, s₁)) :
    ∃ made, Atomic s ((r.mapError Failure.store).map fun _ => .duplicate id, s₁) made := by
  change attempt .rollback (GraphStore.rollback t) s' = _ at h
  have hrollback := logs_attempt .rollback (GraphStore.rollback t : StoreM σ Unit) s'
  have hrollbackNext := hnext.trans (continues_attempt .rollback (hkeeps.rollback t s'.inner))
  rw [h] at hrollback hrollbackNext
  cases r with
  | ok _ =>
    exact ⟨_, .of_steps hrollbackNext.fate hcalls hreports hrollback rfl
      (fun _ _ => ⟨rfl, _, rfl⟩) (fun _ h => nomatch h) fun _ => hrollbackNext.inner⟩
  | error e =>
    exact ⟨_, .of_steps hrollbackNext.fate hcalls hreports hrollback rfl (fun _ h => nomatch h)
      (fun _ h => nomatch h) fun _ => hrollbackNext.inner⟩

theorem enact_atomic (id formula : String) (paths : List String) (s : Fallible σ) :
    ∃ made, Atomic s (enact id formula paths s) made := by
  have hstart := logs_attempt .start (GraphStore.start : StoreM σ τ) s
  have hstartNext := continues_attempt .start (hkeeps.start s.inner)
  unfold enact
  split
  · next e s₁ h₁ =>
    change attempt .start GraphStore.start s = _ at h₁
    rw [h₁] at hstart hstartNext
    exact ⟨_, .failed rfl hstart hstartNext⟩
  · next t s₁ h₁ =>
    change attempt .start GraphStore.start s = _ at h₁
    rw [h₁] at hstart hstartNext
    obtain ⟨hnext, made, hcalls, -, hreports⟩ :=
      audited_materialize hkeeps id formula paths (s₁, t)
    refine Atomic.cons hstart hstartNext ?_
    split
    · next c s₂ t₂ h₂ =>
      rw [h₂] at hnext hcalls hreports
      split
      · next s₃ h₃ => exact commit_atomic hkeeps formula c hnext hcalls hreports h₃
      · next e s₃ h₃ => exact commit_atomic hkeeps formula c hnext hcalls hreports h₃
    · next s₂ t₂ h₂ =>
      rw [h₂] at hnext hcalls hreports
      split
      · next s₃ h₃ => exact rollback_atomic hkeeps id hnext hcalls hreports h₃
      · next e s₃ h₃ => exact rollback_atomic hkeeps id hnext hcalls hreports h₃
    · next e s₂ t₂ h₂ =>
      -- the answer is the error of the step, whatever becomes of the rollback
      rw [h₂] at hnext hcalls hreports
      have hrollback := logs_attempt .rollback (GraphStore.rollback t₂ : StoreM σ Unit) s₂
      have hrollbackNext := hnext.trans (continues_attempt .rollback (hkeeps.rollback t₂ s₂.inner))
      refine ⟨_, .of_steps hrollbackNext.fate hcalls hreports hrollback ?_
        (fun _ h => nomatch h) ?_ fun _ => hrollbackNext.inner⟩
      · rw [CallOutcome.sort_ofAnswer]
        rfl
      · rintro _ ⟨⟩
        rfl

theorem exists_atomic (m : Minimizer) (id formula : String) (s : Fallible σ) :
    ∃ made, Atomic s (compile m id formula s) made := by
  have hlookup := logs_attempt .lookup (GraphStore.lookup .rule id : StoreM σ _) s
  have hlookupNext := continues_attempt .lookup (hkeeps.lookup .rule id s.inner)
  rw [compile_apply, prepare_apply]
  split_ifs
  · exact ⟨_, .refl _⟩
  · cases h₁ : GraphStore.lookup .rule id s with
    | mk r₁ s₁ =>
      change attempt .lookup (GraphStore.lookup .rule id) s = _ at h₁
      rw [h₁] at hlookup hlookupNext
      cases r₁ with
      | error e => exact ⟨_, .failed rfl hlookup hlookupNext⟩
      | ok found =>
        refine Atomic.cons hlookup hlookupNext ?_
        cases found with
        | some node => exact ⟨_, .refl _⟩
        | none =>
          dsimp only
          cases m.paths formula with
          | error e => exact ⟨_, .refl _⟩
          | ok paths => exact enact_atomic hkeeps id formula paths s₁

end

/-- Every compilation over a store of type `σ` any of whose calls may fail is atomic. -/
def CompilesAtomically (σ : Type) {τ : Type} [GraphStore σ τ] : Prop :=
  ∀ (m : Minimizer) (id formula : String) (s : Fallible σ),
    ∃ made, Atomic s (compile m id formula s) made

/-- Both stores compile atomically, whatever they hold and whichever calls fail. Records of a
durable store may have been overwritten by bytes that are no record. -/
theorem compile_atomic : CompilesAtomically MemoryStore ∧ CompilesAtomically Tables :=
  ⟨exists_atomic MemoryStore.keepsCommitted, exists_atomic Tables.keepsCommitted⟩

end Compile

end RulePaths
