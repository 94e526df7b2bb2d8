import RulePaths.Proofs.Engine.Snapshots
import RulePaths.Proofs.Rule.Lockstep
import RulePaths.Proofs.Rule.Races

/-!
# Races over the store of a run

When compilations race over a store that a run has left, at most one of those with the same id
creates its rule. One does if the id was free and not blank and one of the formulas has paths. The
others with a formula that has paths find the rule there and do nothing.

A blank id is refused, whatever the formula.

## Main definitions

- `Race.Decides` — what becomes of the compilations by their ids

## Main results

- `Engine.races_serialize` — races over either store are serial, and decide who creates a rule
-/

namespace RulePaths

namespace Race

variable {ι σ τ : Type}

/-- What the race answered, as submissions. -/
def log (m : Minimizer) (calls : ι → RuleDefinition) (r : Race ι σ) : List Submission :=
  r.answers.map fun a => ⟨m, calls a.1, a.2⟩

/-- The compilation was acknowledged and has created its rule. -/
def IsCreated (r : Race ι σ) (i : ι) : Prop :=
  ∃ a, (i, .ok a) ∈ r.answers ∧ a.isNoop = false

/-- The compilation was acknowledged, and nothing was done. -/
def IsNoop (r : Race ι σ) (i : ι) : Prop :=
  ∃ a, (i, .ok a) ∈ r.answers ∧ a.isNoop = true

/-- What becomes of the compilations that ended in a race over the store `s`. -/
structure Decides [GraphStore σ τ] (m : Minimizer) (calls : ι → RuleDefinition) (s : σ)
    (r : Race ι σ) : Prop where
  atMostOne : ∀ i j, (calls i).id = (calls j).id → r.IsCreated i → r.IsCreated j → i = j
  /-- If an id is not blank and free at the start, and one of its formulas has paths, then one of
  the compilations creates the rule, and the others with such formulas do nothing. -/
  exactlyOne : ∀ id, Blank.isBlankText id = false →
    (GraphStore.lookup .rule id s).1 = .ok none →
    (∃ i ∈ r.ended, (calls i).id = id ∧ ∃ paths, m.paths (calls i).formula = .ok paths) →
      ∃ j, (calls j).id = id ∧ r.IsCreated j ∧
        ∀ i ∈ r.ended, (calls i).id = id → (∃ paths, m.paths (calls i).formula = .ok paths) →
          i ≠ j → r.IsNoop i
  blank : ∀ i ∈ r.ended, Blank.isBlankText (calls i).id = true →
    (i, .error (.rule .emptyId)) ∈ r.answers

section

variable {m : Minimizer} {calls : ι → RuleDefinition} {r : Race ι σ} {i : ι}

theorem exists_of_mem_ended (h : i ∈ r.ended) : ∃ answer, (i, answer) ∈ r.answers := by
  obtain ⟨⟨_, answer⟩, hmem, rfl⟩ := List.mem_map.1 h
  exact ⟨answer, hmem⟩

theorem exists_prefix_of_mem (m : Minimizer) (calls : ι → RuleDefinition)
    {answer : Except Failure Acknowledgment} (h : (i, answer) ∈ r.answers) :
    ∃ l, l ++ [⟨m, calls i, answer⟩] <+: r.log m calls := by
  obtain ⟨before, after, heq⟩ := List.append_of_mem h
  refine ⟨before.map fun a => ⟨m, calls a.1, a.2⟩, after.map fun a => ⟨m, calls a.1, a.2⟩, ?_⟩
  simp [log, heq]

theorem exists_of_isTaken {l : List Submission} (hl : l <+: r.log m calls) {id : String}
    (h : IsTaken l id) : ∃ j, (calls j).id = id ∧ r.IsCreated j := by
  obtain ⟨s, hs, ⟨a, ha, hnoop⟩, rfl⟩ := h
  obtain ⟨⟨j, answer⟩, hmem, rfl⟩ := List.mem_map.1 (hl.subset hs)
  exact ⟨j, rfl, a, ha ▸ hmem, hnoop⟩

/-- Every answer is the one that the submissions before the race, and those that ended before in it,
demand. The rules that were created in it have different ids. -/
structure Answered (log : List Submission) (m : Minimizer) (calls : ι → RuleDefinition)
    (r : Race ι σ) : Prop where
  distinct : ((createdRules (r.log m calls)).map RuleDefinition.id).Nodup
  after : ∀ l s, l ++ [s] <+: r.log m calls → s.AnsweredAfter (log ++ l)

variable {before : List Submission}

theorem Answered.eq_of_isCreated (h : Answered before m calls r) {i j : ι} (hi : r.IsCreated i)
    (hj : r.IsCreated j) (hid : (calls i).id = (calls j).id) : i = j := by
  obtain ⟨a, ha, hcreated⟩ := hi
  obtain ⟨b, hb, hcreated'⟩ := hj
  have hdistinct := h.distinct
  rw [createdRules, log, List.filter_map, List.map_map, List.map_map] at hdistinct
  have hsame := List.inj_on_of_nodup_map hdistinct
    (List.mem_filter.2 ⟨ha, decide_eq_true ⟨a, rfl, hcreated⟩⟩)
    (List.mem_filter.2 ⟨hb, decide_eq_true ⟨b, rfl, hcreated'⟩⟩) hid
  exact congrArg Prod.fst hsame

/-- A rule whose formula has paths is created, unless another one was faster. -/
theorem Answered.created_or_noop (h : Answered before m calls r) (hi : i ∈ r.ended)
    (hblank : Blank.isBlankText (calls i).id = false) (hfree : ¬ IsTaken before (calls i).id)
    (hpaths : ∃ paths, m.paths (calls i).formula = .ok paths) :
    r.IsCreated i ∨ r.IsNoop i ∧ ∃ j, (calls j).id = (calls i).id ∧ r.IsCreated j := by
  obtain ⟨answer, hmem⟩ := exists_of_mem_ended hi
  obtain ⟨l, hl⟩ := exists_prefix_of_mem m calls hmem
  obtain ⟨hcreated, hnoop⟩ := h.after l _ hl
  by_cases htaken : IsTaken (before ++ l) (calls i).id
  · right
    obtain ⟨a, ha, hisNoop⟩ := hnoop.2 ⟨hblank, htaken⟩
    refine ⟨⟨a, ha ▸ hmem, hisNoop⟩, ?_⟩
    obtain ⟨s, hs, hfirst⟩ := htaken
    rcases List.mem_append.1 hs with hbefore | hduring
    · exact absurd ⟨s, hbefore, hfirst⟩ hfree
    · exact exists_of_isTaken ((List.prefix_append _ _).trans hl) ⟨s, hduring, hfirst⟩
  · left
    obtain ⟨a, ha, hisNoop⟩ := hcreated.2 ⟨hblank, htaken, hpaths⟩
    exact ⟨a, ha ▸ hmem, hisNoop⟩

theorem Serial.blank [GraphStore σ τ] {s : σ} (h : Serial m calls s r)
    (hi : i ∈ r.ended) (hblank : Blank.isBlankText (calls i).id = true) :
    (i, .error (.rule .emptyId)) ∈ r.answers := by
  obtain ⟨answer, hmem⟩ := exists_of_mem_ended hi
  have hserially : (i, answer) ∈ (serially m calls r.ended s).1 := by
    rw [h.serial]
    exact hmem
  obtain ⟨s', hcompile⟩ := exists_compile_of_mem_serially hserially
  rw [Compile.compile_blank m hblank] at hcompile
  subst hcompile
  exact hmem

theorem Answered.decides [GraphStore σ τ] {s : σ} (h : Answered before m calls r)
    (hserial : Serial m calls s r)
    (hfree : ∀ id, (GraphStore.lookup .rule id s).1 = .ok none → ¬ IsTaken before id) :
    Decides m calls s r where
  atMostOne i j hid hi hj := h.eq_of_isCreated hi hj hid
  exactlyOne := by
    rintro id hblank hlookup ⟨i, hi, rfl, hpaths⟩
    have hnew := hfree _ hlookup
    obtain ⟨j, hj, hcreated⟩ : ∃ j, (calls j).id = (calls i).id ∧ r.IsCreated j := by
      rcases h.created_or_noop hi hblank hnew hpaths with hcreated | ⟨_, hother⟩
      · exact ⟨i, rfl, hcreated⟩
      · exact hother
    refine ⟨j, hj, hcreated, fun i' hi' hid' hpaths' hne => ?_⟩
    rw [← hid'] at hblank hnew
    rcases h.created_or_noop hi' hblank hnew hpaths' with hcreated' | ⟨hnoop, _⟩
    · exact absurd (h.eq_of_isCreated hcreated' hcreated (hid'.trans hj.symm)) hne
    · exact hnoop
  blank _ hi hblank := hserial.blank hi hblank

end

end Race

namespace Engine

variable {σ τ : Type} [GraphStore σ τ]

/-- Compilations that race over the store of an engine while no call fails. -/
def race {ι : Type} [DecidableEq ι] (e : Engine (Fallible σ)) (calls : ι → RuleDefinition)
    (schedule : List ι) : Race ι σ :=
  Race.run e.minimizer calls schedule e.store.inner

/-- Compilations one after the other are submissions to an engine whose store never fails. -/
theorem serially_submissions {ι : Type} (calls : ι → RuleDefinition) (is : List ι)
    {e : Engine (Fallible σ)} {s : σ} (h : e.store.Mirrors s) :
    (Race.serially e.minimizer calls is s).1.map (fun a => ⟨e.minimizer, calls a.1, a.2⟩) =
      e.submissions (is.map calls) := by
  induction is generalizing e s with
  | nil => rfl
  | cons i is ih =>
    obtain ⟨answer, s₁', s₁, hrun', hrun, hleft⟩ :=
      Fallible.compile_mirrors e.minimizer (calls i).id (calls i).formula h
    have hcreate : createRule (calls i).id (calls i).formula e =
        (answer, { e with store := s₁' }) := by
      rw [createRule, hrun']
    rw [Race.serially_cons, hrun, List.map_cons, submissions, submission, hcreate, ← ih hleft]
    rfl

/-- The rules that were created are among those that were submitted, in the same order. -/
theorem createdRules_sublist (log : List Submission) :
    (createdRules log).Sublist (log.map Submission.rule) :=
  List.filter_sublist.map _

variable [Storage σ] {B : Backend σ}

theorem room_of_cons {log : List Submission} {s : Submission} {rules : List RuleDefinition}
    (hroom : ∀ rs, rs.Sublist (s.rule :: rules) → B.Room (ruleGraph (createdRules log ++ rs)))
    {rs : List RuleDefinition} (hrs : rs.Sublist rules) :
    B.Room (ruleGraph (createdRules (log ++ [s]) ++ rs)) := by
  rw [createdRules_append, List.append_assoc]
  exact hroom _ ((createdRules_sublist [s]).append hrs)

/-- Rules that are submitted one after the other while no call fails. -/
theorem Tracks.submissions {e : Engine (Fallible σ)} {log : List Submission}
    (h : Tracks B e.store log) (hfate : ∀ n, e.store.fate n = none) (rules : List RuleDefinition)
    (hroom : ∀ rs, rs.Sublist rules → B.Room (ruleGraph (createdRules log ++ rs))) :
    Tracks B (e.afterwards rules).store (log ++ e.submissions rules) ∧
      ∀ l s, l ++ [s] <+: e.submissions rules → s.AnsweredAfter (log ++ l) := by
  induction rules generalizing e log with
  | nil =>
    refine ⟨?_, fun l s hl => by simp [Engine.submissions] at hl⟩
    rw [Engine.submissions, List.append_nil]
    exact h
  | cons rule rules ih =>
    have hroom' : ∀ rs, rs.Sublist rules →
        B.Room (ruleGraph (createdRules (log ++ [e.submission rule]) ++ rs)) :=
      fun rs hrs => room_of_cons (s := e.submission rule) hroom hrs
    have hfate' : ∀ n, (Engine.createRule rule.id rule.formula e).2.store.fate n = none := by
      rw [fate_createRule B.keepsCommitted]
      exact hfate
    have hfirst := h.createRule rule (by simpa using hroom' [] (List.nil_sublist _))
    obtain ⟨htracks, hanswered⟩ := ih hfirst hfate' hroom'
    rw [Engine.submissions]
    refine ⟨by rwa [List.append_cons], fun l s hl => ?_⟩
    cases l with
    | nil =>
      obtain rfl : s = e.submission rule := by simpa using hl
      rw [List.append_nil]
      exact h.answeredAfter rule (hroom [rule] (by simp)) (Fallible.not_fated hfate)
    | cons s' l =>
      obtain ⟨rfl, hlater⟩ := List.cons_prefix_cons.1 hl
      rw [List.append_cons]
      exact hanswered l s hlater

section

variable {ι : Type} [DecidableEq ι] {e : Engine (Fallible σ)} {log : List Submission}
  (h : Reached e log) (hmeets : MeetsLookups σ) (calls : ι → RuleDefinition) (schedule : List ι)
  (hroom : ∀ is : List ι, is.Nodup → is ⊆ schedule →
    B.Room (ruleGraph (createdRules log ++ is.map calls)))
include h hmeets hroom

/-- A race over the store of a run is answered as the run and what ended before demand. -/
theorem Reached.race_answered : (e.race calls schedule).Answered log e.minimizer calls := by
  have hserializes := Race.serializes hmeets e.minimizer calls schedule e.store.inner
  have htracks := h.tracks (B := B) (by simpa using hroom [] .nil (List.nil_subset _))
  -- the same engine, with no call fated to fail
  let e' : Engine (Fallible σ) := ⟨e.config, ⟨e.store.inner, fun _ => none, []⟩⟩
  have htracks' : Tracks B e'.store log := ⟨htracks.shows, htracks.distinct, htracks.created⟩
  have hlog : (e.race calls schedule).log e.minimizer calls =
      e'.submissions ((e.race calls schedule).ended.map calls) := by
    rw [← serially_submissions (e := e') calls _ ⟨rfl, fun _ => rfl⟩]
    change _ = (Race.serially e.minimizer calls _ e.store.inner).1.map _
    rw [race, hserializes.serial]
    rfl
  have hroom' : ∀ rs, rs.Sublist ((e.race calls schedule).ended.map calls) →
      B.Room (ruleGraph (createdRules log ++ rs)) := by
    intro rs hrs
    obtain ⟨is, his, rfl⟩ := List.sublist_map_iff.1 hrs
    exact hroom is (hserializes.once.sublist his)
      fun i hi => hserializes.scheduled i (his.subset hi)
  obtain ⟨hafter, hanswered⟩ := htracks'.submissions (fun _ => rfl) _ hroom'
  have hdistinct := hafter.distinct
  rw [createdRules_append, List.map_append] at hdistinct
  refine ⟨?_, ?_⟩ <;> rw [hlog]
  · exact hdistinct.of_append_right
  · exact hanswered

theorem Reached.decides : (e.race calls schedule).Decides e.minimizer calls e.store.inner := by
  have htracks := h.tracks (B := B) (by simpa using hroom [] .nil (List.nil_subset _))
  refine (h.race_answered hmeets calls schedule hroom).decides
    (Race.serial_run hmeets _ calls schedule _) fun id hlookup htaken => ?_
  rw [B.lookup htracks.shows] at hlookup
  exact (node?_ruleGraph_eq_none_iff htracks.distinct).1 (Except.ok.inj hlookup)
    (isTaken_iff.1 htaken)

end

/-- Compilations that race over a store of either type come to what they come to one after the
other. If the store was left by a run, their ids decide which of them create rules. -/
theorem races_serialize :
    (∀ {ι : Type} [DecidableEq ι] (m : Minimizer) (calls : ι → RuleDefinition)
      (schedule : List ι), (∀ s : MemoryStore, Race.Serializes m calls schedule s) ∧
        ∀ s : Tables, Race.Serializes m calls schedule s) ∧
    (∀ (e : Engine (Fallible MemoryStore)) (log : List Submission), Reached e log →
      ∀ {ι : Type} [DecidableEq ι] (calls : ι → RuleDefinition) (schedule : List ι),
        (e.race calls schedule).Decides e.minimizer calls e.store.inner) ∧
    ∀ (e : Engine (Fallible Tables)) (log : List Submission), Reached e log →
      ∀ {ι : Type} [DecidableEq ι] (calls : ι → RuleDefinition) (schedule : List ι),
        (∀ is : List ι, is.Nodup → is ⊆ schedule →
          (ruleGraph (createdRules log ++ is.map calls)).Storable) →
        (e.race calls schedule).Decides e.minimizer calls e.store.inner := by
  refine ⟨fun m calls schedule => ⟨fun s => ?_, fun s => ?_⟩,
    fun e log h _ _ calls schedule => ?_, fun e log h _ _ calls schedule hstorable => ?_⟩
  · exact Race.serializes MemoryStore.meetsLookups m calls schedule s
  · exact Race.serializes Tables.meetsLookups m calls schedule s
  · exact h.decides (B := MemoryStore.backend) MemoryStore.meetsLookups calls schedule
      fun _ _ _ => trivial
  · exact h.decides (B := Tables.backend) Tables.meetsLookups calls schedule hstorable

/-- Two compilations with the same id that both look it up before either of them writes. -/
theorem races_serialize_stale :
    let rule : RuleDefinition := ⟨"b", "0|1"⟩
    let e : Engine (Fallible Tables) := fresh (.durable "graph")
    let e' : Engine (Fallible Tables) := ⟨.inMemory, (createRule rule.id rule.formula e).2.store⟩
    let log := [e.submission rule]
    let calls : Bool → RuleDefinition := fun first => ⟨"a", if first then "0&1" else "2"⟩
    let schedule := [false, true, true, false]
    let r := e'.race calls schedule
    Reached e' log ∧ true ∈ r.ended ∧ false ∈ r.ended ∧
      Race.Serializes e'.minimizer calls schedule e'.store.inner ∧
        r.Decides e'.minimizer calls e'.store.inner := by
  intro rule e e' log calls schedule r
  have hid : Blank.isBlankText rule.id = false := by decide +kernel
  have hpaths : (Config.durable "graph").minimizer.paths rule.formula = .ok ["0", "1"] := by cbv
  have htrue : (Config.durable "graph").minimizer.paths (calls true).formula = .ok ["0&1"] := by cbv
  have hfalse : (Config.durable "graph").minimizer.paths (calls false).formula = .ok ["2"] := by cbv
  have hgraph : ∀ is : List Bool, is.Nodup →
      (ruleGraph ([rule] ++ is.map calls)).Storable := by
    intro is his
    have htrue' := (Minimizer.pathsOf_of_paths htrue).1
    have hfalse' := (Minimizer.pathsOf_of_paths hfalse).1
    have hcases : is = [] ∨ is = [false] ∨ is = [true] ∨ is = [false, true] ∨
        is = [true, false] := by
      rcases is with _ | ⟨a, _ | ⟨b, _ | ⟨c, is⟩⟩⟩
      · simp
      · simp
      · cases a <;> cases b <;> simp at his ⊢
      · cases a <;> cases b <;> cases c <;> simp at his
    rw [ruleGraph_append, ruleGraph_singleton hpaths]
    rcases hcases with rfl | rfl | rfl | rfl | rfl <;>
      simp only [List.map_cons, List.map_nil, List.foldl_cons, List.foldl_nil, ← htrue',
        ← hfalse'] <;> decide +kernel
  obtain ⟨hreached, hcreated, _⟩ : HasCreated e' log [rule] :=
    hasCreated_reopened rfl rfl hid hpaths (hgraph [] .nil)
  have hserializes := races_serialize.1 e'.minimizer calls schedule
  refine ⟨hreached, (hserializes.2 e'.store.inner).complete true (by decide),
    (hserializes.2 e'.store.inner).complete false (by decide), hserializes.2 e'.store.inner, ?_⟩
  exact races_serialize.2.2 e' log hreached calls schedule
    fun is his _ => hcreated ▸ hgraph is his

/-- A blank id is free and its formula has paths, but no rule is created. -/
theorem blank_not_created :
    let e : Engine (Fallible MemoryStore) := fresh .inMemory
    let calls : Unit → RuleDefinition := fun _ => ⟨"", "0"⟩
    let r := e.race calls [(), ()]
    Reached e [] ∧ (GraphStore.lookup .rule "" e.store.inner).1 = .ok none ∧ () ∈ r.ended ∧
      (∃ paths, e.minimizer.paths (calls ()).formula = .ok paths) ∧ ¬ ∃ i, r.IsCreated i := by
  intro e calls r
  have hpaths : e.minimizer.paths (calls ()).formula = .ok ["0"] := by cbv
  have hblank : Blank.isBlankText "" = true := by decide +kernel
  have hanswers : r.answers = [((), .error (.rule .emptyId))] := by
    simp [r, calls, race, Race.run, Race.start, Race.step, Race.settle, Compile.prepare_apply,
      hblank]
  refine ⟨reached_fresh rfl, rfl, ?_, ⟨_, hpaths⟩, ?_⟩
  · simp [Race.ended, hanswers]
  · rintro ⟨i, a, ha, _⟩
    simp [hanswers] at ha

end Engine

end RulePaths
