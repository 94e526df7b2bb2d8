import RulePaths.Proofs.Engine.Runs
import RulePaths.Proofs.Rule.WellFormed
import RulePaths.Proofs.Store.Durable
import RulePaths.Proofs.Store.Memory
import Mathlib

/-!
# The graph that a run leaves

Whatever was submitted, whichever calls failed and however often the store was opened again, what
is committed is a well-formed rule graph. Each of its rules was created by some submission of the
run, and its paths say what its formula says.

A durable store numbers its records and measures them with 64 bits. What is said of it holds as
long as the graph of the created rules keeps below that.

## Main definitions

- `Snapshot.Reflects` — a well-formed graph whose rules were created by the submissions of a log
- `Snapshot.Meant` — the paths of every rule are equivalent to its formula

## Main results

- `Engine.committed_reflects` — the graph of a run reflects its log
- `Engine.committed_meant` — the paths of its rules mean the formulas
-/

namespace RulePaths

namespace Snapshot

/-- The graph is well-formed. Each of its rules was created by a submission, and has the formula
that was submitted and the paths that the minimizer found for it. -/
structure Reflects (g : Snapshot) (log : List Submission) : Prop where
  wellFormed : g.WellFormed
  rules : ∀ n ∈ g.nodesOf .rule, ∃ s ∈ log, s.IsCreated ∧ s.rule.id = n.key ∧
    ∃ paths, s.minimizer.paths s.rule.formula = .ok paths ∧ g.Keeps n s.rule.formula paths

/-- The formula of every rule parses, and it is true under an assignment exactly if one of the
paths linked to the rule is. -/
def Meant (g : Snapshot) : Prop :=
  ∀ n ∈ g.nodesOf .rule, ∃ formula e, n.properties.get? formulaProperty = some formula ∧
    Expr.parse formula = .ok e ∧
      ∀ value : Assignment, e.eval value = true ↔
        ∃ p ∈ g.nodesOf .path, g.Linked p n ∧ Path.eval value p.key = true

theorem Reflects.meant {g : Snapshot} {log : List Submission} (h : g.Reflects log) : g.Meant := by
  intro n hn
  obtain ⟨s, _, _, _, paths, hpaths, hkeeps⟩ := h.rules n hn
  obtain ⟨rfl, hterms⟩ := Minimizer.pathsOf_of_paths hpaths
  obtain ⟨e, hparse, hequivalent⟩ := hterms.equivalent
  refine ⟨s.rule.formula, e, ?_, hparse, fun value => ?_⟩
  · rw [hkeeps.properties, Table.get?_insert_self]
  · rw [← hequivalent value, List.any_eq_true]
    constructor
    · rintro ⟨t, ht, htrue⟩
      obtain ⟨p, hp, hkey, hlinked⟩ := (hkeeps.paths t.render).1 (List.mem_map_of_mem ht)
      exact ⟨p, hp, hlinked, by rw [hkey, Path.eval_render, htrue]⟩
    · rintro ⟨p, hp, hlinked, htrue⟩
      obtain ⟨t, ht, hkey⟩ := List.mem_map.1 ((hkeeps.paths p.key).2 ⟨p, hp, rfl, hlinked⟩)
      exact ⟨t, ht, by rw [← hkey, Path.eval_render] at htrue; exact htrue⟩

end Snapshot

namespace Engine

variable {σ τ : Type} [GraphStore σ τ] [Storage σ] {B : Backend σ}

theorem Tracks.proper {s : Fallible σ} {log : List Submission} (h : Tracks B s log) :
    Proper (createdRules log) where
  distinct := h.distinct
  terms r hr := by
    obtain ⟨s, hs, hcreated, rfl⟩ := mem_createdRules.1 hr
    exact (Minimizer.pathsOf_of_paths (h.created s hs hcreated).2).2

theorem Tracks.reflects {s : Fallible σ} {log : List Submission} (h : Tracks B s log) :
    (ruleGraph (createdRules log)).Reflects log where
  wellFormed := h.proper.wellFormed_ruleGraph
  rules n hn := by
    obtain ⟨r, hr, hid, hkeeps⟩ := h.proper.keeps_ruleGraph hn
    obtain ⟨s, hs, hcreated, rfl⟩ := mem_createdRules.1 hr
    exact ⟨s, hs, hcreated, hid, _, (h.created s hs hcreated).2, hkeeps⟩

theorem Reached.reflects {e : Engine (Fallible σ)} {log : List Submission} (h : Reached e log)
    (hroom : B.Room (ruleGraph (createdRules log))) :
    ∃ g, GraphStore.snapshot e.store.inner = (.ok g, e.store.inner) ∧ g.Reflects log :=
  ⟨_, B.snapshot (h.tracks hroom).shows, (h.tracks hroom).reflects⟩

/-! ### Runs without failures -/

/-- Every rule that was created is in what is committed. -/
theorem HasCreated.exists_keeps {e : Engine (Fallible σ)} {log : List Submission}
    {rules : List RuleDefinition} (h : HasCreated e log rules) (hroom : B.Room (ruleGraph rules))
    {g : Snapshot} (hg : GraphStore.snapshot e.store.inner = (.ok g, e.store.inner))
    {rule : RuleDefinition} (hrule : rule ∈ rules) :
    ∃ n ∈ g.nodesOf .rule, n.key = rule.id ∧
      g.Keeps n rule.formula (Minimizer.pathsOf rule.formula) := by
  obtain rfl := h.rules
  have htracks := h.reached.tracks hroom
  obtain rfl : g = ruleGraph (createdRules log) :=
    Except.ok.inj (Prod.mk.inj (hg.symm.trans (B.snapshot htracks.shows))).1
  exact htracks.proper.exists_keeps hrule

/-- A durable store can be opened again at any time. -/
theorem HasCreated.reopen {e : Engine (Fallible Tables)} {log : List Submission}
    {rules : List RuleDefinition} (h : HasCreated e log rules)
    (hstorable : (ruleGraph rules).Storable) {config : Config}
    (hconfig : config.validate = .ok config) : HasCreated ⟨config, e.store⟩ log rules where
  reached := by
    have htracks := h.reached.tracks (B := Tables.backend) (h.rules ▸ hstorable)
    refine .reopen h.reached config _ htracks.shows.reopens ?_
    rw [Engine.ofStore, hconfig]
    rfl
  rules := h.rules
  fate := h.fate

/-- A durable store is opened again after its first rule was created. -/
theorem hasCreated_reopened {config : Config} (hconfig : config.validate = .ok config)
    {config' : Config} (hconfig' : config'.validate = .ok config') {rule : RuleDefinition}
    (hid : Blank.isBlankText rule.id = false) {paths : List String}
    (hpaths : config.minimizer.paths rule.formula = .ok paths)
    (hstorable : (ruleGraph [rule]).Storable) :
    let e : Engine (Fallible Tables) := fresh config
    HasCreated ⟨config', (Engine.createRule rule.id rule.formula e).2.store⟩ [e.submission rule]
      [rule] :=
  ((hasCreated_fresh hconfig).createRule (B := Tables.backend) hstorable hid List.not_mem_nil
    hpaths).reopen hstorable hconfig'

/-! ### What is committed after any run -/

theorem Reached.meant {e : Engine (Fallible σ)} {log : List Submission} (h : Reached e log)
    (hroom : B.Room (ruleGraph (createdRules log))) :
    ∃ g, GraphStore.snapshot e.store.inner = (.ok g, e.store.inner) ∧ g.Meant :=
  (h.reflects hroom).imp fun _ => And.imp_right Snapshot.Reflects.meant

/-- What is committed after any run, over either store, is a well-formed rule graph. -/
theorem committed_reflects :
    (∀ (e : Engine (Fallible MemoryStore)) (log : List Submission), Reached e log →
      ∃ g, GraphStore.snapshot e.store.inner = (.ok g, e.store.inner) ∧ g.Reflects log) ∧
    ∀ (e : Engine (Fallible Tables)) (log : List Submission), Reached e log →
      (ruleGraph (createdRules log)).Storable →
        ∃ g, GraphStore.snapshot e.store.inner = (.ok g, e.store.inner) ∧ g.Reflects log :=
  ⟨fun _ _ h => h.reflects (B := MemoryStore.backend) trivial,
    fun _ _ h hstorable => h.reflects (B := Tables.backend) hstorable⟩

/-- A durable store to which a rule was submitted and that was opened again with a lower limit has
the rule with both its paths. -/
theorem committed_reflects_reopened :
    let rule : RuleDefinition := ⟨"a", "0&1|2"⟩
    let e : Engine (Fallible Tables) := fresh (.durable "graph")
    let e' : Engine (Fallible Tables) :=
      ⟨⟨some "graph", 4⟩, (createRule rule.id rule.formula e).2.store⟩
    let log := [e.submission rule]
    Reached e' log ∧ createdRules log = [rule] ∧
      ∃ g, GraphStore.snapshot e'.store.inner = (.ok g, e'.store.inner) ∧ g.Reflects log ∧
        ∃ n ∈ g.nodesOf .rule, n.key = rule.id ∧ g.Keeps n rule.formula ["0&1", "2"] := by
  intro rule e e' log
  have hid : Blank.isBlankText rule.id = false := by decide +kernel
  have hpaths : (Config.durable "graph").minimizer.paths rule.formula = .ok ["0&1", "2"] := by cbv
  have hstorable : (ruleGraph [rule]).Storable := by
    rw [ruleGraph_singleton hpaths]
    decide +kernel
  have hcreated : HasCreated e' log [rule] := hasCreated_reopened rfl rfl hid hpaths hstorable
  obtain ⟨g, hg, hreflects⟩ :=
    committed_reflects.2 e' log hcreated.reached (hcreated.rules ▸ hstorable)
  have hrule := hcreated.exists_keeps (B := Tables.backend) hstorable hg (List.mem_singleton_self _)
  rw [← (Minimizer.pathsOf_of_paths hpaths).1] at hrule
  exact ⟨hcreated.reached, hcreated.rules, g, hg, hreflects, hrule⟩

/-- After any run, over either store, the paths linked to a rule mean its formula. -/
theorem committed_meant :
    (∀ (e : Engine (Fallible MemoryStore)) (log : List Submission), Reached e log →
      ∃ g, GraphStore.snapshot e.store.inner = (.ok g, e.store.inner) ∧ g.Meant) ∧
    ∀ (e : Engine (Fallible Tables)) (log : List Submission), Reached e log →
      (ruleGraph (createdRules log)).Storable →
        ∃ g, GraphStore.snapshot e.store.inner = (.ok g, e.store.inner) ∧ g.Meant :=
  ⟨fun _ _ h => h.meant (B := MemoryStore.backend) trivial,
    fun _ _ h hstorable => h.meant (B := Tables.backend) hstorable⟩

/-- A durable store with a rule one of whose paths starts with a negated attribute. -/
theorem committed_meant_negated :
    let rule : RuleDefinition := ⟨"b", "10&!1|2"⟩
    let e : Engine (Fallible Tables) := fresh (.durable "graph")
    let e' : Engine (Fallible Tables) := ⟨.inMemory, (createRule rule.id rule.formula e).2.store⟩
    let log := [e.submission rule]
    Reached e' log ∧ createdRules log = [rule] ∧
      ∃ g, GraphStore.snapshot e'.store.inner = (.ok g, e'.store.inner) ∧ g.Meant ∧
        ∃ n ∈ g.nodesOf .rule, n.key = rule.id ∧ ∀ path,
          (∃ p ∈ g.nodesOf .path, p.key = path ∧ g.Linked p n) ↔ path ∈ ["!1&10", "2"] := by
  intro rule e e' log
  have hid : Blank.isBlankText rule.id = false := by decide +kernel
  have hpaths : (Config.durable "graph").minimizer.paths rule.formula = .ok ["!1&10", "2"] := by
    cbv
  have hstorable : (ruleGraph [rule]).Storable := by
    rw [ruleGraph_singleton hpaths]
    decide +kernel
  have hcreated : HasCreated e' log [rule] := hasCreated_reopened rfl rfl hid hpaths hstorable
  obtain ⟨g, hg, hmeant⟩ :=
    committed_meant.2 e' log hcreated.reached (hcreated.rules ▸ hstorable)
  obtain ⟨n, hn, hkey, hkeeps⟩ :=
    hcreated.exists_keeps (B := Tables.backend) hstorable hg (List.mem_singleton_self _)
  rw [← (Minimizer.pathsOf_of_paths hpaths).1] at hkeeps
  exact ⟨hcreated.reached, hcreated.rules, g, hg, hmeant, n, hn, hkey,
    fun path => (hkeeps.paths path).symm⟩

end Engine

end RulePaths
