import RulePaths.Engine
import RulePaths.Proofs.Rule.Compilation
import RulePaths.Proofs.Rule.Content

/-!
# Runs of the engine

A run starts with an empty store, submits rules alone or in batches, and may open the store again
under another configuration. Any call of the store may fail. The log of a run holds all rules that
were submitted and what was answered.

Whatever fails, the store holds the graph of the rules whose creation was acknowledged.

## Main definitions

- `Submission`, `Engine.Reached` — the entries of a log, and the engines that a run can reach
- `createdRules` — the rules of a log whose creation was acknowledged
- `Engine.HasCreated` — a run without failures has created certain rules
- `Submission.AnsweredAfter` — the answer to a submission is the one that the log before demands

## Main results

- `Engine.Reached.stepwise` — what holds at the start and is kept by one rule at a time and by
  opening the store again holds of every run
- `Engine.Reached.tracks` — the store holds the graph of the created rules
- `Engine.Reached.answeredAfter` — what is answered if no call of the store fails
- `Engine.HasCreated.createRule` — what is created if no call of the store fails
-/

namespace RulePaths

/-- A rule that was submitted to an engine with this minimizer, and the answer. -/
structure Submission where
  minimizer : Minimizer
  rule : RuleDefinition
  answer : Except Failure Acknowledgment

/-- The rule was acknowledged as created. -/
def Submission.IsCreated (s : Submission) : Prop :=
  ∃ a, s.answer = .ok a ∧ a.isNoop = false

/-- The rule was acknowledged, and nothing was done. -/
def Submission.IsNoop (s : Submission) : Prop :=
  ∃ a, s.answer = .ok a ∧ a.isNoop = true

instance (s : Submission) : Decidable s.IsCreated :=
  match h : s.answer with
  | .ok a => decidable_of_iff (a.isNoop = false) (by simp [Submission.IsCreated, h])
  | .error _ => .isFalse (by simp [Submission.IsCreated, h])

/-- The rules whose creation was acknowledged, in the order of the calls. -/
def createdRules (log : List Submission) : List RuleDefinition :=
  (log.filter fun s => decide s.IsCreated).map Submission.rule

/-- A rule with this id was created. -/
def IsTaken (log : List Submission) (id : String) : Prop :=
  ∃ s ∈ log, s.IsCreated ∧ s.rule.id = id

/-- A rule is created if its id is not blank and not taken and its formula has paths. Nothing is
done if its id is taken, whatever its formula. -/
structure Submission.AnsweredAfter (log : List Submission) (s : Submission) : Prop where
  created : s.IsCreated ↔ Blank.isBlankText s.rule.id = false ∧ ¬ IsTaken log s.rule.id ∧
    ∃ paths, s.minimizer.paths s.rule.formula = .ok paths
  noop : s.IsNoop ↔ Blank.isBlankText s.rule.id = false ∧ IsTaken log s.rule.id

namespace Engine

variable {σ τ : Type} [GraphStore σ τ]

/-- An engine over an empty store, with no call fated to fail. -/
def fresh [Storage σ] (config : Config) : Engine (Fallible σ) :=
  ⟨config, ⟨Storage.empty, fun _ => none, []⟩⟩

/-- The submission of one rule. -/
def submission (e : Engine (Fallible σ)) (rule : RuleDefinition) : Submission :=
  ⟨e.minimizer, rule, (createRule rule.id rule.formula e).1⟩

/-- The engine after some rules were submitted. -/
def afterwards (e : Engine (Fallible σ)) (rules : List RuleDefinition) : Engine (Fallible σ) :=
  rules.foldl (fun e rule => (createRule rule.id rule.formula e).2) e

/-- The submissions of some rules one after the other. -/
def submissions (e : Engine (Fallible σ)) : List RuleDefinition → List Submission
  | [] => []
  | rule :: rules =>
    e.submission rule :: submissions (createRule rule.id rule.formula e).2 rules

/-- A batch is nothing but its rules submitted one after the other, and the report counts the
answers. -/
theorem ingest_apply (e : Engine (Fallible σ)) (rules : List RuleDefinition) :
    ingest rules e =
      ((e.submissions rules).foldl (fun report s => report.add s.rule.id s.answer) .empty,
        e.afterwards rules) := by
  unfold ingest
  generalize IngestReport.empty = report
  induction rules generalizing report e with
  | nil => rfl
  | cons rule rules ih =>
    rw [List.foldlM_cons]
    exact ih _ _

omit [GraphStore σ τ] in
theorem store_of_ofStore {config : Config} {store : Fallible σ} {e : Engine (Fallible σ)}
    (he : Engine.ofStore config store = .ok e) : e.store = store := by
  unfold Engine.ofStore at he
  cases hconfig : config.validate with
  | error err =>
    rw [hconfig] at he
    cases he
  | ok config' =>
    rw [hconfig] at he
    cases he
    rfl

theorem fate_createRule (hkeeps : KeepsCommitted σ) (e : Engine (Fallible σ))
    (id formula : String) : (createRule id formula e).2.store.fate = e.store.fate := by
  obtain ⟨made, hatomic⟩ := Compile.exists_atomic hkeeps e.minimizer id formula e.store
  exact hatomic.fate

/-- A rule that was not created left nothing behind. -/
theorem inner_of_not_isCreated (hkeeps : KeepsCommitted σ) {e : Engine (Fallible σ)}
    {rule : RuleDefinition} (h : ¬ (e.submission rule).IsCreated) :
    (createRule rule.id rule.formula e).2.store.inner = e.store.inner := by
  obtain ⟨made, hatomic⟩ := Compile.exists_atomic hkeeps e.minimizer rule.id rule.formula e.store
  refine hatomic.unchanged fun a ha => ?_
  rw [← Bool.not_eq_false]
  exact fun hnoop => h ⟨a, ha, hnoop⟩

variable [Storage σ]

/-- The engines that a run can reach, with the log of the run. -/
inductive Reached : Engine (Fallible σ) → List Submission → Prop where
  /-- An engine over an empty store, with any fate of its calls. -/
  | start {e : Engine (Fallible σ)} (config : Config) (fate : Nat → Option StoreError)
    (he : Engine.ofStore config ⟨Storage.empty, fate, []⟩ = .ok e) : Reached e []
  | create {e : Engine (Fallible σ)} {log : List Submission} (h : Reached e log)
    (id formula : String) :
    Reached (createRule id formula e).2 (log ++ [e.submission ⟨id, formula⟩])
  | ingest {e : Engine (Fallible σ)} {log : List Submission} (h : Reached e log)
    (rules : List RuleDefinition) :
    Reached (ingest rules e).2 (log ++ e.submissions rules)
  /-- The store is closed and opened again under any configuration that is in range. -/
  | reopen {e e' : Engine (Fallible σ)} {log : List Submission} (h : Reached e log)
    (config : Config) (store : σ) (hstore : Storage.Reopens e.store.inner store)
    (he : Engine.ofStore config { e.store with inner := store } = .ok e') : Reached e' log

/-- Batches need no step of their own: they are submitted rule by rule. -/
@[elab_as_elim]
theorem Reached.stepwise
    {P : (e : Engine (Fallible σ)) → (log : List Submission) → Reached e log → Prop}
    (start : ∀ config fate e (he : Engine.ofStore config ⟨Storage.empty, fate, []⟩ = .ok e),
      P e [] (.start config fate he))
    (create : ∀ e log (h : Reached e log), P e log h → ∀ rule : RuleDefinition,
      P (createRule rule.id rule.formula e).2 (log ++ [e.submission rule])
        (.create h rule.id rule.formula))
    (reopen : ∀ e log (h : Reached e log), P e log h → ∀ config store e'
      (hstore : Storage.Reopens e.store.inner store)
      (he : Engine.ofStore config { e.store with inner := store } = .ok e'),
        P e' log (.reopen h config store hstore he))
    {e : Engine (Fallible σ)} {log : List Submission} (h : Reached e log) : P e log h := by
  -- a batch is as many steps as it has rules
  have hbatch : ∀ rules e log (h : Reached e log), P e log h →
      ∃ h' : Reached (e.afterwards rules) (log ++ e.submissions rules), P _ _ h' := by
    intro rules
    induction rules with
    | nil =>
      intro e log h hP
      rw [submissions, List.append_nil]
      exact ⟨h, hP⟩
    | cons rule rules ih =>
      intro e log h hP
      rw [submissions, List.append_cons]
      exact ih _ _ _ (create e log h hP rule)
  induction h with
  | start config fate he => exact start config fate _ he
  | create h id formula ih => exact create _ _ h ih ⟨id, formula⟩
  | @ingest e log h rules ih =>
    obtain ⟨h', hP⟩ := hbatch rules e log h ih
    have hafter : ∀ e', e' = e.afterwards rules → ∀ h', P e' (log ++ e.submissions rules) h' := by
      rintro _ rfl _
      exact hP
    exact hafter _ (congrArg Prod.snd (ingest_apply e rules)) _
  | reopen h config store hstore he ih => exact reopen _ _ h ih config store _ hstore he

end Engine

/-! ### The created rules -/

theorem createdRules_append (log log' : List Submission) :
    createdRules (log ++ log') = createdRules log ++ createdRules log' := by
  simp [createdRules]

theorem mem_createdRules {log : List Submission} {r : RuleDefinition} :
    r ∈ createdRules log ↔ ∃ s ∈ log, s.IsCreated ∧ s.rule = r := by
  simp [createdRules, and_assoc]

theorem isTaken_iff {log : List Submission} {id : String} :
    IsTaken log id ↔ id ∈ (createdRules log).map RuleDefinition.id := by
  simp [IsTaken, createdRules, and_assoc]

theorem createdRules_of_isCreated {s : Submission} (h : s.IsCreated) :
    createdRules [s] = [s.rule] := by
  simp [createdRules, h]

theorem createdRules_of_not_isCreated {s : Submission} (h : ¬ s.IsCreated) :
    createdRules [s] = [] := by
  simp [createdRules, h]

theorem Submission.not_of_error {s : Submission} (h : ∃ e, s.answer = .error e) :
    ¬ s.IsCreated ∧ ¬ s.IsNoop := by
  obtain ⟨e, h⟩ := h
  simp [IsCreated, IsNoop, h]

theorem Submission.iff_of_ok {s : Submission} {a : Acknowledgment} (h : s.answer = .ok a) :
    (s.IsCreated ↔ a.isNoop = false) ∧ (s.IsNoop ↔ a.isNoop = true) := by
  simp [IsCreated, IsNoop, h]

/-- A submission of a log is the last one or one of those before. -/
theorem eq_or_prefix_of_concat {log l : List Submission} {s s' : Submission}
    (h : l ++ [s] <+: log ++ [s']) : (l = log ∧ s = s') ∨ l ++ [s] <+: log := by
  refine (List.prefix_concat_iff.1 h).imp_left fun heq => ?_
  obtain ⟨hl, hs⟩ := List.append_inj' heq rfl
  exact ⟨hl, List.singleton_inj.1 hs⟩

/-! ### What runs keep -/

namespace Engine

variable {σ τ : Type} [GraphStore σ τ] [Storage σ] {B : Backend σ}

/-- The store holds the graph of the created rules, whose ids are different, and whose formulas
have paths under the minimizers they were submitted to. -/
structure Tracks (B : Backend σ) (s : Fallible σ) (log : List Submission) : Prop where
  shows : B.Shows s.inner (ruleGraph (createdRules log))
  distinct : ((createdRules log).map RuleDefinition.id).Nodup
  created : ∀ s ∈ log, s.IsCreated → Blank.isBlankText s.rule.id = false ∧
    s.minimizer.paths s.rule.formula = .ok (Minimizer.pathsOf s.rule.formula)

/-- What becomes of a rule that is submitted next, if there is room for it. -/
theorem Tracks.settled {e : Engine (Fallible σ)} {log : List Submission}
    (h : Tracks B e.store log) (rule : RuleDefinition)
    (hroom : B.Room (ruleGraph (createdRules log ++ [rule]))) :
    Compile.Settled B e.minimizer rule.id rule.formula (ruleGraph (createdRules log)) e.store
      (compile e.minimizer rule.id rule.formula e.store) := by
  refine Compile.settled_compile h.shows e.minimizer rule.id rule.formula fun paths hpaths => ?_
  rw [(Minimizer.pathsOf_of_paths hpaths).1, ← ruleGraph_concat]
  exact hroom

/-- A rule that was created was one that could be, and is in the graph now. -/
theorem Tracks.of_isCreated {e : Engine (Fallible σ)} {log : List Submission}
    (h : Tracks B e.store log) (rule : RuleDefinition)
    (hroom : B.Room (ruleGraph (createdRules log ++ [rule])))
    (hcreated : (e.submission rule).IsCreated) :
    Blank.isBlankText rule.id = false ∧ rule.id ∉ (createdRules log).map RuleDefinition.id ∧
      e.minimizer.paths rule.formula = .ok (Minimizer.pathsOf rule.formula) ∧
        B.Shows (createRule rule.id rule.formula e).2.store.inner
          (ruleGraph (createdRules log ++ [rule])) := by
  obtain ⟨a, ha, hnoop⟩ := hcreated
  change (compile e.minimizer rule.id rule.formula e.store).1 = .ok a at ha
  cases h.settled rule hroom with
  | blank _ herror =>
    obtain ⟨e, herror⟩ := herror
    cases herror.symm.trans ha
  | duplicate _ _ hanswer =>
    cases hanswer.symm.trans ha
    cases hnoop
  | rejected _ _ _ herror =>
    obtain ⟨e, herror⟩ := herror
    cases herror.symm.trans ha
  | failed hanswer _ => cases (hanswer a ha).symm.trans hnoop
  | created hid hnode paths hpaths c _ _ hshows =>
    obtain ⟨rfl, _⟩ := Minimizer.pathsOf_of_paths hpaths
    exact ⟨hid, (node?_ruleGraph_eq_none_iff h.distinct).1 hnode, hpaths,
      ruleGraph_concat _ rule ▸ hshows⟩

/-- The step of a run: one more rule is submitted. -/
theorem Tracks.createRule {e : Engine (Fallible σ)} {log : List Submission}
    (h : Tracks B e.store log) (rule : RuleDefinition)
    (hroom : B.Room (ruleGraph (createdRules (log ++ [e.submission rule])))) :
    Tracks B (Engine.createRule rule.id rule.formula e).2.store (log ++ [e.submission rule]) := by
  by_cases hcreated : (e.submission rule).IsCreated
  · have hrules : createdRules (log ++ [e.submission rule]) = createdRules log ++ [rule] := by
      rw [createdRules_append, createdRules_of_isCreated hcreated]
      rfl
    rw [hrules] at hroom
    obtain ⟨hid, hnew, hpaths, hshows⟩ := h.of_isCreated rule hroom hcreated
    refine ⟨hrules ▸ hshows, ?_, ?_⟩
    · rw [hrules, List.map_append]
      exact h.distinct.append (List.nodup_singleton _) (by simpa using hnew)
    · exact List.forall_mem_append.2
        ⟨h.created, List.forall_mem_singleton.2 fun _ => ⟨hid, hpaths⟩⟩
  · have hrules : createdRules (log ++ [e.submission rule]) = createdRules log := by
      rw [createdRules_append, createdRules_of_not_isCreated hcreated, List.append_nil]
    refine ⟨?_, hrules ▸ h.distinct, ?_⟩
    · rw [hrules, inner_of_not_isCreated B.keepsCommitted hcreated]
      exact h.shows
    · exact List.forall_mem_append.2
        ⟨h.created, List.forall_mem_singleton.2 fun hs => absurd hs hcreated⟩

/-- A graph that a longer run has room for had room all the time. -/
theorem room_of_append {log log' : List Submission}
    (hroom : B.Room (ruleGraph (createdRules (log ++ log')))) :
    B.Room (ruleGraph (createdRules log)) :=
  B.room_of_below (createdRules_append log log' ▸ below_ruleGraph_append _ _) hroom

/-- Whatever failed on the way, the store holds the graph of the rules that were created. -/
theorem Reached.tracks {e : Engine (Fallible σ)} {log : List Submission} (h : Reached e log)
    (hroom : B.Room (ruleGraph (createdRules log))) : Tracks B e.store log := by
  induction h using Reached.stepwise with
  | start config fate e he =>
    rw [store_of_ofStore he]
    exact ⟨B.shows_empty, .nil, nofun⟩
  | create e log _ ih rule => exact (ih (room_of_append hroom)).createRule rule hroom
  | reopen e log _ ih config store e' hstore he =>
    have htracks := ih hroom
    rw [store_of_ofStore he]
    exact ⟨B.reopens htracks.shows hstore, htracks.distinct, htracks.created⟩

/-! ### Answers without failures -/

theorem Tracks.answeredAfter {e : Engine (Fallible σ)} {log : List Submission}
    (h : Tracks B e.store log) (rule : RuleDefinition)
    (hroom : B.Room (ruleGraph (createdRules log ++ [rule]))) (hfated : ¬ e.store.Fated) :
    (e.submission rule).AnsweredAfter log := by
  -- the lookup finds an id exactly if it is taken
  have htaken : IsTaken log rule.id ↔ (ruleGraph (createdRules log)).node? .rule rule.id ≠ none :=
    isTaken_iff.trans (node?_ruleGraph_eq_none_iff h.distinct).not_left.symm
  cases h.settled rule hroom with
  | blank hblank herror =>
    obtain ⟨hcreated, hnoop⟩ := Submission.not_of_error (s := e.submission rule) herror
    have hid : ¬ Blank.isBlankText rule.id = false := by simp [hblank]
    exact ⟨iff_of_false hcreated fun h => hid h.1, iff_of_false hnoop fun h => hid h.1⟩
  | duplicate hid hnode hanswer =>
    obtain ⟨hcreated, hnoop⟩ := Submission.iff_of_ok (s := e.submission rule) hanswer
    have hid' := htaken.2 hnode
    exact ⟨iff_of_false (mt hcreated.1 nofun) fun h => h.2.1 hid',
      iff_of_true (hnoop.2 rfl) ⟨hid, hid'⟩⟩
  | rejected hid hnode hpaths herror =>
    obtain ⟨hcreated, hnoop⟩ := Submission.not_of_error (s := e.submission rule) herror
    obtain ⟨e', hpaths⟩ := hpaths
    refine ⟨iff_of_false hcreated ?_, iff_of_false hnoop fun h => htaken.1 h.2 hnode⟩
    rintro ⟨_, _, paths, hok⟩
    cases hpaths.symm.trans hok
  | created hid hnode paths hpaths c hanswer _ _ =>
    obtain ⟨hcreated, hnoop⟩ := Submission.iff_of_ok (s := e.submission rule) hanswer
    have hnew : ¬ IsTaken log rule.id := fun h => htaken.1 h hnode
    exact ⟨iff_of_true (hcreated.2 rfl) ⟨hid, hnew, paths, hpaths⟩,
      iff_of_false (mt hnoop.1 nofun) fun h => hnew h.2⟩
  | failed _ hfated' => exact absurd hfated' hfated

/-- A rule that can be created is created if no later call is fated to fail. -/
theorem Reached.createdRules_concat {e : Engine (Fallible σ)} {log : List Submission}
    (h : Reached e log) {rule : RuleDefinition}
    (hroom : B.Room (ruleGraph (createdRules log ++ [rule]))) (hfated : ¬ e.store.Fated)
    (hid : Blank.isBlankText rule.id = false) (hnew : ¬ IsTaken log rule.id) {paths : List String}
    (hpaths : e.minimizer.paths rule.formula = .ok paths) :
    createdRules (log ++ [e.submission rule]) = createdRules log ++ [rule] := by
  have htracks := h.tracks (B.room_of_below (below_ruleGraph_append _ _) hroom)
  have hanswered := htracks.answeredAfter rule hroom hfated
  have hcreated : (e.submission rule).IsCreated := hanswered.created.2 ⟨hid, hnew, paths, hpaths⟩
  rw [createdRules_append, createdRules_of_isCreated hcreated]
  rfl

theorem reached_fresh {config : Config} (hconfig : config.validate = .ok config) :
    Reached (fresh (σ := σ) config) [] :=
  .start config _ (by rw [Engine.ofStore, hconfig]; rfl)

/-- A run has created these rules, and no call is fated to fail. -/
structure HasCreated (e : Engine (Fallible σ)) (log : List Submission)
    (rules : List RuleDefinition) : Prop where
  reached : Reached e log
  rules : createdRules log = rules
  fate : ∀ n, e.store.fate n = none

theorem hasCreated_fresh {config : Config} (hconfig : config.validate = .ok config) :
    HasCreated (fresh (σ := σ) config) [] [] :=
  ⟨reached_fresh hconfig, rfl, fun _ => rfl⟩

/-- One more rule is created if it can be. -/
theorem HasCreated.createRule {e : Engine (Fallible σ)} {log : List Submission}
    {rules : List RuleDefinition} (h : HasCreated e log rules) {rule : RuleDefinition}
    (hroom : B.Room (ruleGraph (rules ++ [rule]))) (hid : Blank.isBlankText rule.id = false)
    (hnew : rule.id ∉ rules.map RuleDefinition.id) {paths : List String}
    (hpaths : e.minimizer.paths rule.formula = .ok paths) :
    HasCreated (Engine.createRule rule.id rule.formula e).2 (log ++ [e.submission rule])
      (rules ++ [rule]) where
  reached := .create h.reached rule.id rule.formula
  rules := by
    obtain rfl := h.rules
    exact h.reached.createdRules_concat hroom (Fallible.not_fated h.fate) hid
      (mt isTaken_iff.1 hnew) hpaths
  fate n := by
    rw [fate_createRule B.keepsCommitted]
    exact h.fate n

/-- If no call fails, every submission of a run is answered as the ones before it demand. -/
theorem Reached.answeredAfter {e : Engine (Fallible σ)} {log : List Submission} (h : Reached e log)
    (hfate : ∀ n, e.store.fate n = none)
    (hroom : ∀ l s, l ++ [s] <+: log → B.Room (ruleGraph (createdRules l ++ [s.rule])))
    {l : List Submission} {s : Submission} (hl : l ++ [s] <+: log) : s.AnsweredAfter l := by
  induction h using Reached.stepwise with
  | start => simp at hl
  | create e log h ih rule =>
    rw [fate_createRule B.keepsCommitted] at hfate
    obtain ⟨rfl, rfl⟩ | hl' := eq_or_prefix_of_concat hl
    · have hlast := hroom _ _ (List.prefix_refl _)
      have htracks := h.tracks (B.room_of_below (below_ruleGraph_append _ _) hlast)
      exact htracks.answeredAfter rule hlast (Fallible.not_fated hfate)
    · exact ih hfate (fun l s hl => hroom l s (hl.trans (List.prefix_append _ _))) hl'
  | reopen e log _ ih config store e' _ he =>
    refine ih (fun n => ?_) hroom hl
    have := hfate n
    rwa [store_of_ofStore he] at this

end Engine

end RulePaths
