import RulePaths.Proofs.Rule.Atomicity
import RulePaths.Proofs.Store.Representation
import RulePaths.Rule.RuleDefinition
import Mathlib.Data.List.Induction
import Mathlib.Logic.Function.Basic

/-!
# Compilations that race

A compilation is a lookup and a transaction, and other compilations may commit in between. Whatever
the interleaving, the answers and the store are those of the same compilations one after the other,
in the order in which they ended. A lookup may be stale when the transaction starts, but then the
transaction meets the rule that the lookup missed. The paths are those of the formula at any time.

## Main definitions

- `Race` — a store and how far the compilations over it have come
- `Race.run` — the race after the steps of a schedule
- `Race.Serial` — a race comes to what compilations one after the other come to

## Main results

- `Compile.compile_eq_enact` — the transaction alone does what the whole compilation would
- `Race.serial_run` — every race is serial
-/

namespace RulePaths

/-! ### A lookup and a transaction -/

/-- What a transaction meets that was just started is what a lookup finds. -/
structure MeetsLookups (σ : Type) {τ : Type} [GraphStore σ τ] : Prop extends KeepsCommitted σ where
  begins : ∀ s : σ, ∃ t, GraphStore.start s = (.ok t, s) ∧ ∀ kind key,
    (∀ n, (GraphStore.lookup kind key s).1 = .ok (some n) →
      (GraphStore.perform (.create kind key) (s, t)).1 = .error (.alreadyExists kind key)) ∧
    ∀ e, (GraphStore.lookup kind key s).1 = .error e →
      (GraphStore.perform (.create kind key) (s, t)).1 = .error e ∧
        ∀ kind' key', e ≠ .alreadyExists kind' key'
  ends : ∀ t (s : σ), GraphStore.rollback t s = (.ok (), s)

theorem MemoryStore.meetsLookups : MeetsLookups MemoryStore where
  toKeepsCommitted := keepsCommitted
  begins s := by
    refine ⟨s.start, rfl, fun kind key => ⟨fun n hn => ?_, fun e he => nomatch he⟩⟩
    have hfound : s.find? kind key = some n := Except.ok.inj hn
    rw [fst_perform, MemoryTxn.perform, MemoryTxn.create]
    simp [MemoryTxn.find?, MemoryTxn.staged?, start, hfound, Except.map]
  ends _ _ := rfl

theorem Tables.meetsLookups : MeetsLookups Tables where
  toKeepsCommitted := keepsCommitted
  begins s := by
    refine ⟨s.start, rfl, fun kind key => ?_⟩
    rw [fst_perform, TablesTxn.perform, TablesTxn.create]
    refine ⟨fun n hn => ?_, fun e he => ⟨?_, fun kind' key' => ?_⟩⟩
    · have hload : s.start.tables.loadNode (compositeKey kind key) = .ok (some n) := hn
      rw [hload]
      rfl
    · have hload : s.start.tables.loadNode (compositeKey kind key) = .error e := he
      rw [hload]
      rfl
    · rintro rfl
      exact loadNode_ne_alreadyExists _ _ _ _ he
  ends _ _ := rfl

namespace Compile

open StoreM

variable {σ τ : Type} [GraphStore σ τ]

section

variable (hmeets : MeetsLookups σ)
include hmeets

theorem exists_perform_of_error {c : TxnCall} {s : σ} {t : τ} {e : StoreError}
    (h : (GraphStore.perform c (s, t)).1 = .error e) :
    ∃ t', GraphStore.perform c (s, t) = (.error e, s, t') :=
  ⟨(GraphStore.perform c (s, t)).2.2, Prod.ext h (Prod.ext (hmeets.perform c (s, t)) rfl)⟩

/-- The transaction of a rule whose id is taken is rolled back. -/
theorem enact_of_found {id : String} {s : σ} {n : NodeRecord}
    (h : (GraphStore.lookup .rule id s).1 = .ok (some n)) (formula : String)
    (paths : List String) : enact id formula paths s = (.ok (.duplicate id), s) := by
  obtain ⟨t, hstart, ht⟩ := hmeets.begins s
  obtain ⟨t', hcreate⟩ := exists_perform_of_error hmeets ((ht .rule id).1 n h)
  have hmade : materialize id formula paths (s, t) = (.ok none, s, t') := by
    rw [materialize, bind_apply, observe_apply, hcreate]
    rfl
  rw [enact, hstart]
  dsimp only
  rw [hmade]
  dsimp only
  rw [hmeets.ends]

/-- A node that cannot be read fails the transaction as it fails the lookup. -/
theorem enact_of_error {id : String} {s : σ} {e : StoreError}
    (h : (GraphStore.lookup .rule id s).1 = .error e) (formula : String) (paths : List String) :
    enact id formula paths s = (.error (.store e), s) := by
  obtain ⟨t, hstart, ht⟩ := hmeets.begins s
  obtain ⟨herror, he⟩ := (ht .rule id).2 e h
  obtain ⟨t', hcreate⟩ := exists_perform_of_error hmeets herror
  have hmade : materialize id formula paths (s, t) = (.error e, s, t') := by
    rw [materialize, bind_apply, observe_apply, hcreate]
    cases e with
    | alreadyExists kind key => exact absurd rfl (he kind key)
    | _ => rfl
  rw [enact, hstart]
  dsimp only
  rw [hmade]
  dsimp only
  rw [hmeets.ends]

/-- The second step of a compilation, at any time, does what the whole compilation would do then. -/
theorem compile_eq_enact {m : Minimizer} {id formula : String} {paths : List String}
    (hid : Blank.isBlankText id = false) (hpaths : m.paths formula = .ok paths) (s : σ) :
    compile m id formula s = enact id formula paths s := by
  rw [compile_apply, prepare_apply, hid, if_neg Bool.false_ne_true]
  have hkeeps := hmeets.lookup .rule id s
  cases hlookup : GraphStore.lookup .rule id s with
  | mk r s' =>
    rw [hlookup] at hkeeps
    obtain rfl : s' = s := hkeeps
    have hanswer := congrArg Prod.fst hlookup
    cases r with
    | error e => exact (enact_of_error hmeets hanswer formula paths).symm
    | ok found =>
      cases found with
      | some n => exact (enact_of_found hmeets hanswer formula paths).symm
      | none => simp only [hpaths]

omit hmeets in
theorem compile_blank (m : Minimizer) {id : String} (hid : Blank.isBlankText id = true)
    (formula : String) (s : σ) : compile m id formula s = (.error (.rule .emptyId), s) := by
  rw [compile_apply, prepare_apply, hid, if_pos rfl]

theorem prepare_keeps (m : Minimizer) (id formula : String) (s : σ) :
    (prepare m id formula s).2 = s := by
  have hkeeps := hmeets.lookup .rule id s
  rw [prepare_apply]
  split_ifs
  · rfl
  · split <;> next hlookup =>
      rw [hlookup] at hkeeps
      exact hkeeps

omit hmeets in
/-- A call that the first step does not settle has an id that is not blank, and paths. -/
theorem paths_of_prepare {m : Minimizer} {id formula : String} {s s' : σ} {paths : List String}
    (h : prepare m id formula s = (.write paths, s')) :
    Blank.isBlankText id = false ∧ m.paths formula = .ok paths := by
  rw [prepare_apply] at h
  split_ifs at h with hid
  · cases h
  · split at h
    · cases h
    · cases h
    · cases hpaths : m.paths formula with
      | error e =>
        rw [hpaths] at h
        cases h
      | ok found =>
        rw [hpaths] at h
        cases h
        exact ⟨eq_false_of_ne_true hid, rfl⟩

end

end Compile

/-! ### Races -/

/-- How far a compilation has come. -/
inductive Phase where
  | waiting
  /-- The first step found these paths. The second one is to write them. -/
  | planned (paths : List String)
  | ended

/-- How many steps are left at most. -/
def Phase.left : Phase → Nat
  | waiting => 2
  | planned _ => 1
  | ended => 0

/-- A store over which compilations race, how far each of them has come, and the answers to those
that ended, in the order in which they ended. -/
structure Race (ι σ : Type) where
  store : σ
  phase : ι → Phase
  answers : List (ι × Except Failure Acknowledgment)

namespace Race

variable {ι σ τ : Type}

/-- No compilation has made a step. -/
def start (s : σ) : Race ι σ :=
  ⟨s, fun _ => .waiting, []⟩

/-- The compilations that ended, in this order. -/
def ended (r : Race ι σ) : List ι :=
  r.answers.map Prod.fst

/-- A compilation ends with an answer and leaves a store. -/
def settle [DecidableEq ι] (r : Race ι σ) (i : ι) (out : Except Failure Acknowledgment × σ) :
    Race ι σ :=
  ⟨out.2, Function.update r.phase i .ended, r.answers ++ [(i, out.1)]⟩

theorem ended_settle [DecidableEq ι] (r : Race ι σ) (i : ι)
    (out : Except Failure Acknowledgment × σ) : (r.settle i out).ended = r.ended ++ [i] := by
  simp [ended, settle]

variable [GraphStore σ τ] {m : Minimizer} {calls : ι → RuleDefinition}

/-- Whole compilations one after the other. -/
def serially (m : Minimizer) (calls : ι → RuleDefinition) (is : List ι) :
    StateM σ (List (ι × Except Failure Acknowledgment)) :=
  is.mapM fun i => do return (i, ← compile m (calls i).id (calls i).formula)

theorem serially_cons (i : ι) (is : List ι) (s : σ) :
    serially m calls (i :: is) s =
      let (answer, s) := compile m (calls i).id (calls i).formula s
      let (answers, s) := serially m calls is s
      ((i, answer) :: answers, s) := by
  rw [serially, List.mapM_cons]
  rfl

theorem serially_concat (is : List ι) (i : ι) (s : σ) :
    serially m calls (is ++ [i]) s =
      let (answers, s) := serially m calls is s
      let (answer, s) := compile m (calls i).id (calls i).formula s
      (answers ++ [(i, answer)], s) := by
  rw [serially, List.mapM_append]
  rfl

theorem exists_compile_of_mem_serially {is : List ι} {i : ι}
    {answer : Except Failure Acknowledgment} {s : σ}
    (h : (i, answer) ∈ (serially m calls is s).1) :
    ∃ s' : σ, (compile m (calls i).id (calls i).formula s').1 = answer := by
  induction is generalizing s with
  | nil => exact absurd h List.not_mem_nil
  | cons j is ih =>
    rw [serially_cons] at h
    rcases List.mem_cons.1 h with heq | hmem
    · obtain ⟨rfl, rfl⟩ := Prod.mk.inj heq
      exact ⟨s, rfl⟩
    · exact ih hmem

/-- A race over the store `s` has come to what whole compilations come to, one after the other, in
the order in which they ended. -/
structure Serial (m : Minimizer) (calls : ι → RuleDefinition) (s : σ) (r : Race ι σ) : Prop where
  serial : serially m calls r.ended s = (r.answers, r.store)
  nodup : r.ended.Nodup
  ended : ∀ i, i ∈ r.ended ↔ (r.phase i).left = 0
  planned : ∀ i paths, r.phase i = .planned paths →
    Blank.isBlankText (calls i).id = false ∧ m.paths (calls i).formula = .ok paths

theorem serial_start (s : σ) : Serial m calls s (start s) where
  serial := rfl
  nodup := .nil
  ended i := by simp [ended, start, Phase.left]
  planned i paths h := nomatch h

variable [DecidableEq ι]

/-- The next step of a compilation: its lookup, or its transaction if there is one. -/
def step (m : Minimizer) (calls : ι → RuleDefinition) (r : Race ι σ) (i : ι) : Race ι σ :=
  match r.phase i with
  | .waiting =>
    match Compile.prepare m (calls i).id (calls i).formula r.store with
    | (.settled answer, s) => r.settle i (answer, s)
    | (.write paths, s) => ⟨s, Function.update r.phase i (.planned paths), r.answers⟩
  | .planned paths => r.settle i (Compile.enact (calls i).id (calls i).formula paths r.store)
  | .ended => r

/-- The race after steps of the compilations in the order of a schedule. -/
def run (m : Minimizer) (calls : ι → RuleDefinition) (schedule : List ι) (s : σ) : Race ι σ :=
  schedule.foldl (step m calls) (start s)

theorem run_concat (schedule : List ι) (i : ι) (s : σ) :
    run m calls (schedule ++ [i]) s = step m calls (run m calls schedule s) i := by
  rw [run, List.foldl_concat]
  rfl

variable {s : σ} {r : Race ι σ}

/-- What a step can do. A compilation that ends with this step is answered as the whole compilation
would be. -/
theorem Serial.step_cases (hmeets : MeetsLookups σ) (h : Serial m calls s r) (i : ι) :
    i ∈ r.ended ∧ step m calls r i = r ∨
    i ∉ r.ended ∧
      step m calls r i = r.settle i (compile m (calls i).id (calls i).formula r.store) ∨
    r.phase i = .waiting ∧ ∃ paths, Blank.isBlankText (calls i).id = false ∧
      m.paths (calls i).formula = .ok paths ∧
        step m calls r i = { r with phase := Function.update r.phase i (.planned paths) } := by
  have hended := h.ended i
  cases hphase : r.phase i with
  | waiting =>
    right
    have hkeeps := Compile.prepare_keeps hmeets m (calls i).id (calls i).formula r.store
    cases hprepare : Compile.prepare m (calls i).id (calls i).formula r.store with
    | mk plan s' =>
      rw [hprepare] at hkeeps
      obtain rfl : s' = r.store := hkeeps
      cases plan with
      | settled answer =>
        left
        rw [Compile.compile_apply, hprepare]
        refine ⟨?_, by simp only [step, hphase, hprepare]⟩
        simp [hended, hphase, Phase.left]
      | write paths =>
        right
        obtain ⟨hid, hpaths⟩ := Compile.paths_of_prepare hprepare
        exact ⟨rfl, paths, hid, hpaths, by simp only [step, hphase, hprepare]⟩
  | planned paths =>
    right; left
    obtain ⟨hid, hpaths⟩ := h.planned i paths hphase
    rw [Compile.compile_eq_enact hmeets hid hpaths]
    refine ⟨?_, by simp only [step, hphase]⟩
    simp [hended, hphase, Phase.left]
  | ended =>
    left
    refine ⟨?_, by simp only [step, hphase]⟩
    simp [hended, hphase, Phase.left]

/-- One more step keeps a race serial. -/
theorem Serial.step (hmeets : MeetsLookups σ) (h : Serial m calls s r) (i : ι) :
    Serial m calls s (step m calls r i) := by
  obtain ⟨_, heq⟩ | ⟨hnew, heq⟩ | ⟨hwaiting, paths, hid, hpaths, heq⟩ := h.step_cases hmeets i
  · rw [heq]
    exact h
  · rw [heq]
    refine ⟨?_, ?_, fun j => ?_, fun j paths hj => ?_⟩
    · rw [ended_settle, serially_concat, h.serial]
      rfl
    · rw [ended_settle]
      exact h.nodup.append (List.nodup_singleton i) (by simpa using hnew)
    · rw [ended_settle, List.mem_append, List.mem_singleton, h.ended]
      rcases eq_or_ne j i with rfl | hji
      · simp [settle, Phase.left]
      · simp [settle, hji]
    · rcases eq_or_ne j i with rfl | hji
      · simp [settle] at hj
      · exact h.planned j paths (by simpa [settle, hji] using hj)
  · rw [heq]
    refine ⟨h.serial, h.nodup, fun j => (h.ended j).trans ?_, fun j paths' hj => ?_⟩
    · rcases eq_or_ne j i with rfl | hji
      · simp [hwaiting, Phase.left]
      · simp [hji]
    · rcases eq_or_ne j i with rfl | hji
      · obtain rfl : paths = paths' := by simpa using hj
        exact ⟨hid, hpaths⟩
      · exact h.planned j paths' (by simpa [hji] using hj)

/-- Every race is serial after every schedule. -/
theorem serial_run (hmeets : MeetsLookups σ) (m : Minimizer) (calls : ι → RuleDefinition)
    (schedule : List ι) (s : σ) : Serial m calls s (run m calls schedule s) := by
  induction schedule using List.reverseRecOn with
  | nil => exact serial_start s
  | append_singleton schedule i ih =>
    rw [run_concat]
    exact ih.step hmeets i

/-! ### Progress -/

/-- A step ends no other compilation than its own. -/
theorem ended_step (m : Minimizer) (calls : ι → RuleDefinition) (r : Race ι σ) (i : ι) :
    (step m calls r i).ended = r.ended ∨ (step m calls r i).ended = r.ended ++ [i] := by
  unfold Race.step
  split
  · split
    · exact .inr (ended_settle r i _)
    · exact .inl rfl
  · exact .inr (ended_settle r i _)
  · exact .inl rfl

/-- A step of a compilation leaves fewer steps of it, and as many of the others. -/
theorem left_step (m : Minimizer) (calls : ι → RuleDefinition) (r : Race ι σ) (i j : ι) :
    ((step m calls r i).phase j).left ≤ (r.phase j).left - if i = j then 1 else 0 := by
  unfold Race.step
  rcases eq_or_ne j i with rfl | hji
  · rw [if_pos rfl]
    split
    · next hphase => split <;> simp [settle, hphase, Phase.left]
    · next hphase => simp [settle, Phase.left]
    · next hphase => simp [hphase, Phase.left]
  · rw [if_neg hji.symm]
    split
    · split <;> simp [settle, hji]
    · simp [settle, hji]
    · exact Nat.le_refl _

/-- Two steps of a compilation in a schedule end it. -/
theorem left_run (m : Minimizer) (calls : ι → RuleDefinition) (schedule : List ι) (s : σ) (i : ι) :
    ((run m calls schedule s).phase i).left ≤ 2 - schedule.count i := by
  induction schedule using List.reverseRecOn with
  | nil => exact Nat.le_refl _
  | append_singleton schedule j ih =>
    have hstep := left_step m calls (run m calls schedule s) j i
    rw [run_concat, List.count_append, List.count_singleton]
    rcases eq_or_ne j i with rfl | hji
    · rw [if_pos rfl] at hstep
      rw [beq_self_eq_true, if_pos rfl]
      omega
    · rw [if_neg hji] at hstep
      rw [beq_false_of_ne hji, if_neg Bool.false_ne_true]
      omega

theorem mem_of_mem_ended {schedule : List ι} {i : ι} (h : i ∈ (run m calls schedule s).ended) :
    i ∈ schedule := by
  induction schedule using List.reverseRecOn with
  | nil => simp [run, start, ended] at h
  | append_singleton schedule j ih =>
    rw [run_concat] at h
    rw [List.mem_append]
    rcases ended_step m calls (run m calls schedule s) j with heq | heq
    · exact .inl (ih (heq ▸ h))
    · rw [heq, List.mem_append] at h
      exact h.imp ih id

/-- What becomes of compilations that race over a store. -/
structure Serializes (m : Minimizer) (calls : ι → RuleDefinition) (schedule : List ι) (s : σ) :
    Prop where
  /-- The answers and the store are those of the whole compilations one after the other. -/
  serial : serially m calls (run m calls schedule s).ended s =
    ((run m calls schedule s).answers, (run m calls schedule s).store)
  /-- Their order is that of the steps that ended them. -/
  order : ∀ l i, l ++ [i] <+: schedule →
    (run m calls (l ++ [i]) s).ended = (run m calls l s).ended ∨
      (run m calls (l ++ [i]) s).ended = (run m calls l s).ended ++ [i]
  once : (run m calls schedule s).ended.Nodup
  scheduled : ∀ i ∈ (run m calls schedule s).ended, i ∈ schedule
  complete : ∀ i, 2 ≤ schedule.count i → i ∈ (run m calls schedule s).ended

theorem serializes (hmeets : MeetsLookups σ) (m : Minimizer) (calls : ι → RuleDefinition)
    (schedule : List ι) (s : σ) : Serializes m calls schedule s where
  serial := (serial_run hmeets m calls schedule s).serial
  order l i _ := by
    rw [run_concat]
    exact ended_step m calls (run m calls l s) i
  once := (serial_run hmeets m calls schedule s).nodup
  scheduled _ hi := mem_of_mem_ended hi
  complete i hi := by
    have hleft := left_run m calls schedule s i
    exact ((serial_run hmeets m calls schedule s).ended i).2 (by omega)

end Race

end RulePaths
