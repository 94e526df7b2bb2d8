import RulePaths.Proofs.Engine.Snapshots

/-!
# Answers and reports count what was done

What an answer tells of a rule that was created is the difference of the graph before and after:
one more rule, the new paths with one edge into each, the new attributes, and one edge from each of
the paths to the rule. Any other answer means that nothing has changed. So the report on a batch
counts all its rules, lists the failures in their order, and tells how many rules have come.

## Main definitions

- `Counts.after` — the counts that an answer leads to
- `Engine.Accounted` — an engine counts what it does for one rule
- `Engine.Reported` — an engine reports what it did for a batch

## Main results

- `Proper.counts_ruleGraph` — the counts of a graph of rules
- `Engine.Tracks.counts_createRule` — the counts after one more rule
- `Engine.accounts_exact` — the engines of all runs count and report what they do, over either store
-/

namespace RulePaths

/-! ### Counting a graph of rules -/

namespace Proper

variable {rules : List RuleDefinition} (h : Proper rules)
include h

/-- A rule graph has as many rules as were added, one edge into each path, and as many edges to
rules as the rules have paths. -/
theorem counts_ruleGraph :
    (ruleGraph rules).counts.rules = rules.length ∧
    (ruleGraph rules).counts.inPathEdges = (ruleGraph rules).counts.paths ∧
    (ruleGraph rules).counts.hasRuleEdges =
      (rules.map fun r => (Minimizer.pathsOf r.formula).length).sum := by
  have hcontent := content_ruleGraph h.distinct
  refine ⟨?_, ?_, ?_⟩
  · have hlength := congrArg List.length hcontent.ruleNodes
    rw [List.length_map, List.length_map, List.length_map] at hlength
    exact hlength
  · have hlinks := congrArg List.length hcontent.inPathLinks
    have hkeys := congrArg List.length hcontent.pathKeys
    rw [Snapshot.links, List.length_map] at hlinks
    rw [Snapshot.keys, List.length_map] at hkeys
    refine hlinks.trans (Eq.trans ?_ hkeys.symm)
    rw [List.filterMap_length_eq_length]
    intro path hpath
    obtain ⟨lead, hlead⟩ := h.exists_lead (List.mem_eraseDups.1 hpath)
    rw [Snapshot.leadLink?, hlead]
    rfl
  · have hlinks := congrArg List.length hcontent.hasRuleLinks
    rw [Snapshot.links, List.length_map, List.length_map, List.length_flatMap] at hlinks
    simp only [List.length_map] at hlinks
    exact hlinks

end Proper

/-- The counts after a rule was answered, from those before. -/
def Counts.after (k : Counts) : Except Failure Acknowledgment → Counts
  | .ok ⟨_, .created c⟩ =>
    ⟨k.rules + 1, k.paths + c.newPaths, k.attributes + c.newAttributes,
      k.inPathEdges + c.newPaths, k.hasRuleEdges + c.paths⟩
  | _ => k

/-- The counts of a graph of rules after one more rule was created. -/
theorem Proper.counts_concat {rules : List RuleDefinition} {rule : RuleDefinition} {c : Creation}
    (h : Proper rules) (hnext : Proper (rules ++ [rule]))
    (hc : Compile.Created (ruleGraph rules) rule.id rule.formula (Minimizer.pathsOf rule.formula) c) :
    (ruleGraph (rules ++ [rule])).counts =
      (ruleGraph rules).counts.after (.ok (.created rule.formula c)) := by
  obtain ⟨hrules, hinPath, hhasRule⟩ := h.counts_ruleGraph
  obtain ⟨hrules', hinPath', hhasRule'⟩ := hnext.counts_ruleGraph
  have hcounted := hc.counted
  rw [← ruleGraph_concat] at hcounted
  have hpaths := hcounted.newPaths
  have hattributes := hcounted.newAttributes
  have hlength := hc.length
  rw [List.length_append, List.length_singleton] at hrules'
  rw [List.map_append, List.map_singleton, List.sum_append_nat, List.sum_singleton] at hhasRule'
  rw [Acknowledgment.created, Counts.after]
  generalize (ruleGraph (rules ++ [rule])).counts = k at *
  obtain ⟨_, _, _, _, _⟩ := k
  rw [Counts.mk.injEq]
  dsimp only at *
  refine ⟨?_, hpaths.symm, hattributes.symm, ?_, ?_⟩ <;> omega

/-- Only the creation of a rule changes the counts. -/
theorem Counts.after_cases (k : Counts) (answer : Except Failure Acknowledgment) :
    (∃ message c, answer = .ok ⟨message, .created c⟩) ∨ k.after answer = k :=
  match answer with
  | .ok ⟨message, .created c⟩ => .inl ⟨message, c, rfl⟩
  | .ok ⟨_, .duplicate⟩ => .inr rfl
  | .error _ => .inr rfl

theorem Submission.after_of_not_isCreated {s : Submission} (h : ¬ s.IsCreated) (k : Counts) :
    k.after s.answer = k := by
  obtain ⟨_, _, hanswer⟩ | hsame := k.after_cases s.answer
  · exact absurd ⟨_, hanswer, rfl⟩ h
  · exact hsame

/-! ### Reports -/

/-- What a report lists of a submission: the id and the message, if it failed. -/
def Submission.failure? (s : Submission) : Option (String × String) :=
  match s.answer with
  | .error f => some (s.rule.id, f.message)
  | .ok _ => none

/-- One more answer is counted as created, as skipped or as failed. -/
theorem IngestReport.add_cases (r : IngestReport) (s : Submission) :
    (s.IsCreated ∧ s.failure? = none ∧
      r.add s.rule.id s.answer = { r with created := r.created + 1 }) ∨
    (¬ s.IsCreated ∧ s.failure? = none ∧
      r.add s.rule.id s.answer = { r with skipped := r.skipped + 1 }) ∨
    ∃ f, ¬ s.IsCreated ∧ s.failure? = some f ∧
      r.add s.rule.id s.answer = { r with failed := r.failed ++ [f] } := by
  cases hanswer : s.answer with
  | error f =>
    refine .inr (.inr ⟨_, (Submission.not_of_error ⟨f, hanswer⟩).1, ?_, rfl⟩)
    rw [Submission.failure?, hanswer]
  | ok a =>
    have hfailure : s.failure? = none := by rw [Submission.failure?, hanswer]
    have hcreated := (Submission.iff_of_ok hanswer).1
    cases hnoop : a.isNoop with
    | false => exact .inl ⟨hcreated.2 hnoop, hfailure, by simp [add, hnoop]⟩
    | true =>
      have hnot : ¬ s.IsCreated := fun h => by cases (hcreated.1 h).symm.trans hnoop
      exact .inr (.inl ⟨hnot, hfailure, by simp [add, hnoop]⟩)

/-- The report on some submissions, after a report on the ones before. -/
theorem IngestReport.foldl_add (r : IngestReport) (ss : List Submission) :
    let report := ss.foldl (fun report s => report.add s.rule.id s.answer) r
    report.created = r.created + (createdRules ss).length ∧
    report.failed = r.failed ++ ss.filterMap Submission.failure? ∧
    report.created + report.skipped + report.failed.length =
      r.created + r.skipped + r.failed.length + ss.length := by
  induction ss generalizing r with
  | nil => simp [createdRules]
  | cons s ss ih =>
    obtain ⟨hcreated, hfailed, htotal⟩ := ih (r.add s.rule.id s.answer)
    have hrules : createdRules (s :: ss) = createdRules [s] ++ createdRules ss :=
      createdRules_append [s] ss
    rw [List.foldl_cons, hrules, List.length_append, List.length_cons]
    obtain ⟨h, hnone, hadd⟩ | ⟨h, hnone, hadd⟩ | ⟨f, h, hsome, hadd⟩ := r.add_cases s
    · rw [hadd] at hcreated hfailed htotal ⊢
      rw [createdRules_of_isCreated h, List.filterMap_cons_none hnone]
      dsimp only at *
      simp only [List.length_singleton]
      exact ⟨by omega, hfailed, by omega⟩
    · rw [hadd] at hcreated hfailed htotal ⊢
      rw [createdRules_of_not_isCreated h, List.filterMap_cons_none hnone]
      dsimp only at *
      simp only [List.length_nil]
      exact ⟨by omega, hfailed, by omega⟩
    · rw [hadd] at hcreated hfailed htotal ⊢
      rw [createdRules_of_not_isCreated h, List.filterMap_cons_some hsome]
      rw [List.append_assoc, List.singleton_append] at hfailed
      rw [List.length_append] at htotal
      dsimp only at *
      simp only [List.length_nil, List.length_singleton] at htotal ⊢
      exact ⟨by omega, hfailed, by omega⟩

namespace Engine

variable {σ τ : Type} [GraphStore σ τ]

/-- What is committed to the store of an engine has these counts. -/
def Holds (e : Engine (Fallible σ)) (k : Counts) : Prop :=
  GraphStore.counts e.store.inner = (.ok k, e.store.inner)

/-- The answer to a rule accounts for the difference of the counts, and for all paths of the
rule. -/
structure Accounted (e : Engine (Fallible σ)) (rule : RuleDefinition) : Prop where
  counts : ∃ k, e.Holds k ∧ (createRule rule.id rule.formula e).2.Holds
    (k.after (createRule rule.id rule.formula e).1)
  paths : ∀ message c, (createRule rule.id rule.formula e).1 = .ok ⟨message, .created c⟩ →
    ∃ paths, e.minimizer.paths rule.formula = .ok paths ∧ c.paths = paths.length ∧ 0 < c.paths

/-- The report on a batch counts every rule once, lists those that failed in the order of the
batch, and tells how many rules there are more. -/
structure Reported (e : Engine (Fallible σ)) (rules : List RuleDefinition) : Prop where
  submitted : (e.submissions rules).map Submission.rule = rules
  total : (ingest rules e).1.created + (ingest rules e).1.skipped +
    (ingest rules e).1.failed.length = rules.length
  failed : (ingest rules e).1.failed = (e.submissions rules).filterMap Submission.failure?
  order : ((ingest rules e).1.failed.map Prod.fst).Sublist (rules.map RuleDefinition.id)
  counts : ∃ k k', e.Holds k ∧ (ingest rules e).2.Holds k' ∧
    k'.rules = k.rules + (ingest rules e).1.created

theorem map_rule_submissions (e : Engine (Fallible σ)) (rules : List RuleDefinition) :
    (e.submissions rules).map Submission.rule = rules := by
  induction rules generalizing e with
  | nil => rfl
  | cons rule rules ih => rw [submissions, List.map_cons, ih]; rfl

omit [GraphStore σ τ] in
theorem failures_sublist (ss : List Submission) :
    ((ss.filterMap Submission.failure?).map Prod.fst).Sublist
      ((ss.map Submission.rule).map RuleDefinition.id) := by
  induction ss with
  | nil => exact .slnil
  | cons s ss ih =>
    cases hanswer : s.answer with
    | ok a =>
      rw [List.filterMap_cons_none (by rw [Submission.failure?, hanswer])]
      exact ih.cons _
    | error f =>
      rw [List.filterMap_cons_some (by rw [Submission.failure?, hanswer])]
      exact ih.cons_cons _

variable [Storage σ] {B : Backend σ}

theorem holds_of_shows {e : Engine (Fallible σ)} {g : Snapshot} (h : B.Shows e.store.inner g) :
    e.Holds g.counts := by
  rw [Holds, GraphStore.counts, StoreM.bind_apply, B.snapshot h]
  rfl

/-- The counts after one more rule are those that the answer leads to. -/
theorem Tracks.counts_createRule {e : Engine (Fallible σ)} {log : List Submission}
    (h : Tracks B e.store log) (rule : RuleDefinition)
    (hroom : B.Room (ruleGraph (createdRules (log ++ [e.submission rule])))) :
    (ruleGraph (createdRules (log ++ [e.submission rule]))).counts =
      (ruleGraph (createdRules log)).counts.after (e.submission rule).answer ∧
    ∀ message c, (e.submission rule).answer = .ok ⟨message, .created c⟩ →
      ∃ paths, e.minimizer.paths rule.formula = .ok paths ∧ c.paths = paths.length ∧
        0 < c.paths := by
  by_cases hcreated : (e.submission rule).IsCreated
  · have hnext := (h.createRule rule hroom).proper
    have hrules : createdRules (log ++ [e.submission rule]) = createdRules log ++ [rule] := by
      rw [createdRules_append, createdRules_of_isCreated hcreated]
      rfl
    rw [hrules] at hroom hnext ⊢
    obtain ⟨a, ha, hnoop⟩ := hcreated
    change (compile e.minimizer rule.id rule.formula e.store).1 = .ok a at ha
    cases h.settled rule hroom with
    | blank _ herror | rejected _ _ _ herror =>
      obtain ⟨_, herror⟩ := herror
      cases herror.symm.trans ha
    | duplicate _ _ hanswer =>
      cases hanswer.symm.trans ha
      cases hnoop
    | failed hanswer _ => cases (hanswer a ha).symm.trans hnoop
    | created _ _ paths hpaths c hanswer hc _ =>
      obtain ⟨rfl, _⟩ := Minimizer.pathsOf_of_paths hpaths
      change (e.submission rule).answer = _ at hanswer
      rw [hanswer]
      refine ⟨h.proper.counts_concat hnext hc, fun message c' hc' => ?_⟩
      cases hc'
      have hpositive := Minimizer.length_paths_pos hpaths
      exact ⟨_, hpaths, hc.length, hc.length ▸ hpositive⟩
  · rw [createdRules_append, createdRules_of_not_isCreated hcreated, List.append_nil]
    refine ⟨(Submission.after_of_not_isCreated hcreated _).symm, fun message c hanswer => ?_⟩
    exact absurd ⟨_, hanswer, rfl⟩ hcreated

theorem Reached.accounted {e : Engine (Fallible σ)} {log : List Submission} (h : Reached e log)
    (rule : RuleDefinition)
    (hroom : B.Room (ruleGraph (createdRules (log ++ [e.submission rule])))) :
    e.Accounted rule := by
  have htracks := h.tracks (room_of_append hroom)
  obtain ⟨hcounts, hpaths⟩ := htracks.counts_createRule rule hroom
  refine ⟨⟨_, holds_of_shows htracks.shows, ?_⟩, hpaths⟩
  have hholds := holds_of_shows (htracks.createRule rule hroom).shows
  rwa [hcounts] at hholds

theorem Reached.reported {e : Engine (Fallible σ)} {log : List Submission} (h : Reached e log)
    (rules : List RuleDefinition)
    (hroom : B.Room (ruleGraph (createdRules (log ++ e.submissions rules)))) :
    e.Reported rules := by
  have hbefore := h.tracks (room_of_append hroom)
  have hafter := (Reached.ingest h rules).tracks hroom
  obtain ⟨hcreated, hfailed, htotal⟩ := IngestReport.foldl_add .empty (e.submissions rules)
  have hreport : (Engine.ingest rules e).1 =
      (e.submissions rules).foldl (fun report s => report.add s.rule.id s.answer)
        IngestReport.empty := by
    rw [ingest_apply]
  have hrules := map_rule_submissions e rules
  rw [← hreport] at hcreated hfailed htotal
  constructor
  · exact hrules
  · have hlength := congrArg List.length hrules
    rw [List.length_map] at hlength
    simpa [IngestReport.empty, hlength] using htotal
  · simpa [IngestReport.empty] using hfailed
  · have hsublist := failures_sublist (e.submissions rules)
    rw [hrules] at hsublist
    simpa [hfailed, IngestReport.empty] using hsublist
  · refine ⟨_, _, holds_of_shows hbefore.shows, holds_of_shows hafter.shows, ?_⟩
    rw [hafter.proper.counts_ruleGraph.1, hbefore.proper.counts_ruleGraph.1, createdRules_append,
      List.length_append, hcreated]
    simp [IngestReport.empty]

/-- Over either store, whatever fails, the counts of what is committed change by what is answered,
and the report on a batch counts its rules. -/
theorem accounts_exact :
    (∀ (e : Engine (Fallible MemoryStore)) (log : List Submission), Reached e log →
      (∀ rule, e.Accounted rule) ∧ ∀ rules, e.Reported rules) ∧
    ∀ (e : Engine (Fallible Tables)) (log : List Submission), Reached e log →
      (∀ rule, (ruleGraph (createdRules (log ++ [e.submission rule]))).Storable →
        e.Accounted rule) ∧
      ∀ rules, (ruleGraph (createdRules (log ++ e.submissions rules))).Storable →
        e.Reported rules := by
  refine ⟨fun e log h => ⟨fun rule => ?_, fun rules => ?_⟩, fun e log h => ⟨?_, ?_⟩⟩
  · exact h.accounted (B := MemoryStore.backend) rule trivial
  · exact h.reported (B := MemoryStore.backend) rules trivial
  · exact fun rule hstorable => h.accounted (B := Tables.backend) rule hstorable
  · exact fun rules hstorable => h.reported (B := Tables.backend) rules hstorable

/-- A durable store with one rule, to which a rule is submitted that shares a path with it. Of the
two paths of the second rule one is new, and so is one attribute. -/
theorem accounts_exact_sharedPath :
    let first : RuleDefinition := ⟨"a", "0&1|2"⟩
    let rule : RuleDefinition := ⟨"b", "0&1|0&3"⟩
    let e : Engine (Fallible Tables) := fresh (.durable "graph")
    let e' : Engine (Fallible Tables) := ⟨.inMemory, (createRule first.id first.formula e).2.store⟩
    let log := [e.submission first]
    Reached e' log ∧ (ruleGraph (createdRules (log ++ [e'.submission rule]))).Storable ∧
      createdRules (log ++ [e'.submission rule]) = [first, rule] ∧
      (∃ message c, (createRule rule.id rule.formula e').1 = .ok ⟨message, .created c⟩ ∧
        c.paths = 2 ∧ c.newPaths = 1 ∧ c.newAttributes = 1) ∧
      e'.Accounted rule ∧ e'.Reported [rule] := by
  intro first rule e e' log
  have hfirst : Blank.isBlankText first.id = false := by decide +kernel
  have hid : Blank.isBlankText rule.id = false := by decide +kernel
  have hpathsFirst : (Config.durable "graph").minimizer.paths first.formula =
      .ok ["0&1", "2"] := by
    cbv
  have hpaths : (Config.durable "graph").minimizer.paths rule.formula = .ok ["0&1", "0&3"] := by
    cbv
  have hgraph := ruleGraph_singleton hpathsFirst
  have hgraph' := ruleGraph_pair hpathsFirst hpaths
  have hstorable : (ruleGraph [first]).Storable := by
    rw [hgraph]
    decide +kernel
  have hstorable' : (ruleGraph [first, rule]).Storable := by
    rw [hgraph']
    decide +kernel
  have hcreated : HasCreated e' log [first] :=
    hasCreated_reopened rfl rfl hfirst hpathsFirst hstorable
  have hcreated' : createdRules (log ++ [e'.submission rule]) = [first, rule] :=
    (hcreated.createRule (B := Tables.backend) hstorable' hid (by decide) hpaths).rules
  have hroom : (ruleGraph (createdRules (log ++ [e'.submission rule]))).Storable :=
    hcreated' ▸ hstorable'
  obtain ⟨haccounted, hreported⟩ := accounts_exact.2 e' log hcreated.reached
  refine ⟨hcreated.reached, hroom, hcreated', ?_, haccounted rule hroom, hreported [rule] hroom⟩
  have htracks := hcreated.reached.tracks (B := Tables.backend) (hcreated.rules ▸ hstorable)
  have hcounts := (htracks.counts_createRule rule hroom).1
  have hbefore : (ruleGraph [first]).counts = ⟨1, 2, 3, 2, 2⟩ := by
    rw [hgraph]
    decide +kernel
  have hafter : (ruleGraph [first, rule]).counts = ⟨2, 3, 4, 3, 4⟩ := by
    rw [hgraph']
    decide +kernel
  rw [hcreated', hcreated.rules, hbefore, hafter] at hcounts
  obtain ⟨message, c, hanswer⟩ | hsame :=
    Counts.after_cases ⟨1, 2, 3, 2, 2⟩ (e'.submission rule).answer
  · simp only [hanswer, Counts.after, Counts.mk.injEq] at hcounts
    exact ⟨message, c, hanswer, by omega, by omega, by omega⟩
  · rw [hsame] at hcounts
    exact absurd hcounts (by decide)

end Engine

end RulePaths
