import RulePaths.Proofs.Engine.Snapshots
import RulePaths.Proofs.Rule.Export

/-!
# What is read after a run

What an engine exports, and what it reads back of a rule, depends on the rules that were created and
on nothing else: not on what failed, nor on what was submitted again, nor on the order of creation.
If no call of the store fails, what is created depends on the submissions alone.

## Main definitions

- `Engine.Answers` — an engine reads back certain rules
- `Engine.Accounts` — an engine reads back what was created in a run

## Main results

- `Engine.accounts_created` — the engines of all runs do, over either store
-/

namespace RulePaths

namespace Engine

variable {σ τ : Type} [GraphStore σ τ]

/-- The engine without failures. -/
def base (e : Engine (Fallible σ)) : Engine σ :=
  ⟨e.config, e.store.inner⟩

/-- What is read is the export of some rules, whole or rule by rule. -/
structure Answers (e : Engine σ) (rules : List RuleDefinition) : Prop where
  exported : exportGraph e = (.ok (exportOf rules), e)
  found : ∀ id r, (rule id e).1 = .ok r ↔ r ∈ (exportOf rules).rules ∧ r.id = id
  notFound : ∀ id, (rule id e).1 = .error (.rule (.notFound id)) ↔
    ∀ r ∈ (exportOf rules).rules, r.id ≠ id

/-- What is read after a run is the export of the rules that were created. Their paths are those
that their minimizers found, and their order does not matter. -/
structure Accounts (e : Engine (Fallible σ)) (log : List Submission) : Prop where
  answers : e.base.Answers (createdRules log)
  paths : ∀ s ∈ log, s.IsCreated →
    s.minimizer.paths s.rule.formula = .ok (Minimizer.pathsOf s.rule.formula)
  order : ∀ rules, rules.Perm (createdRules log) → exportOf rules = exportOf (createdRules log)

/-! ### Reading a graph -/

theorem exportGraph_apply {e : Engine σ} {g : Snapshot}
    (h : GraphStore.snapshot e.store = (.ok g, e.store)) :
    exportGraph e = (.ok g.toExport, e) := by
  simp [exportGraph, call, bind, ExceptT.bind, ExceptT.mk, ExceptT.bindCont, StateT.bind, pure,
    ExceptT.pure, StateT.pure, h, Except.mapError]

theorem rule_apply {e : Engine σ} {g : Snapshot}
    (h : GraphStore.snapshot e.store = (.ok g, e.store)) (id : String) :
    (rule id e).1 = match (g.node? .rule id).map g.ruleEntry with
      | some r => .ok r
      | none => .error (.rule (.notFound id)) := by
  simp only [rule, call, bind, ExceptT.bind, ExceptT.mk, ExceptT.bindCont, StateT.bind, h,
    Except.mapError]
  cases g.node? .rule id <;> rfl

theorem answers_of_snapshot {e : Engine σ} {g : Snapshot} (hg : g.Sound)
    (h : GraphStore.snapshot e.store = (.ok g, e.store)) {rules : List RuleDefinition}
    (hexport : g.toExport = exportOf rules) : e.Answers rules where
  exported := hexport ▸ exportGraph_apply h
  found id r := by
    rw [rule_apply h, ← hexport, ← hg.ruleEntry_iff]
    cases (g.node? .rule id).map g.ruleEntry <;> simp
  notFound id := by
    have hnone : (g.node? .rule id).map g.ruleEntry = none ↔
        ∀ r ∈ g.toExport.rules, r.id ≠ id := by
      rw [Option.eq_none_iff_forall_ne_some]
      simp only [ne_eq, hg.ruleEntry_iff, not_and]
    rw [rule_apply h, ← hexport, ← hnone]
    cases (g.node? .rule id).map g.ruleEntry <;> simp

/-! ### Reading after a run -/

variable [Storage σ] {B : Backend σ}

theorem Tracks.accounts {e : Engine (Fallible σ)} {log : List Submission}
    (h : Tracks B e.store log) : Accounts e log where
  answers := answers_of_snapshot (B.sound_of_shows h.shows) (B.snapshot h.shows)
    h.proper.toExport_ruleGraph
  paths s hs hcreated := (h.created s hs hcreated).2
  order _ hperm := exportOf_perm hperm ((hperm.map _).nodup_iff.2 h.distinct)

/-- Over either store, what is read after a run is what was created in it, and if no call of the
store fails, every submission is answered as the ones before it demand. -/
theorem accounts_created :
    (∀ (e : Engine (Fallible MemoryStore)) (log : List Submission), Reached e log →
      Accounts e log ∧ ((∀ n, e.store.fate n = none) →
        ∀ l s, l ++ [s] <+: log → s.AnsweredAfter l)) ∧
    ∀ (e : Engine (Fallible Tables)) (log : List Submission), Reached e log →
      ((ruleGraph (createdRules log)).Storable → Accounts e log) ∧
      ((∀ n, e.store.fate n = none) →
        (∀ l s, l ++ [s] <+: log → (ruleGraph (createdRules l ++ [s.rule])).Storable) →
          ∀ l s, l ++ [s] <+: log → s.AnsweredAfter l) := by
  refine ⟨fun e log h => ⟨?_, fun hfate l s hl => ?_⟩, fun e log h => ⟨?_, ?_⟩⟩
  · exact (h.tracks (B := MemoryStore.backend) trivial).accounts
  · exact h.answeredAfter (B := MemoryStore.backend) hfate (fun _ _ _ => trivial) hl
  · exact fun hstorable => (h.tracks (B := Tables.backend) hstorable).accounts
  · exact fun hfate hstorable l s hl => h.answeredAfter (B := Tables.backend) hfate hstorable hl

/-- A durable store is opened again between two rules that share a path. -/
theorem accounts_created_reopened :
    let first : RuleDefinition := ⟨"b", "2|1&0"⟩
    let second : RuleDefinition := ⟨"a", "0&3|0&1"⟩
    let e : Engine (Fallible Tables) := fresh (.durable "graph")
    let e' : Engine (Fallible Tables) := ⟨.inMemory, (createRule first.id first.formula e).2.store⟩
    let e'' := (createRule second.id second.formula e').2
    let log := [e.submission first, e'.submission second]
    Reached e'' log ∧ createdRules log = [first, second] ∧ Accounts e'' log ∧
      ∀ l s, l ++ [s] <+: log → s.AnsweredAfter l := by
  intro first second e e' e'' log
  have hfirst : Blank.isBlankText first.id = false := by decide +kernel
  have hsecond : Blank.isBlankText second.id = false := by decide +kernel
  have hpaths : (Config.durable "graph").minimizer.paths first.formula = .ok ["0&1", "2"] := by cbv
  have hpaths' : (Config.durable "graph").minimizer.paths second.formula =
      .ok ["0&1", "0&3"] := by
    cbv
  have hstorable : (ruleGraph [first]).Storable := by
    rw [ruleGraph_singleton hpaths]
    decide +kernel
  have hstorable' : (ruleGraph [first, second]).Storable := by
    rw [ruleGraph_pair hpaths hpaths']
    decide +kernel
  have hcreated : HasCreated e' [e.submission first] [first] :=
    hasCreated_reopened rfl rfl hfirst hpaths hstorable
  have hcreated' : HasCreated e'' log [first, second] :=
    hcreated.createRule (B := Tables.backend) hstorable' hsecond (by decide) hpaths'
  have hprefix : ∀ l s, l ++ [s] <+: log → (ruleGraph (createdRules l ++ [s.rule])).Storable := by
    intro l s hl
    have hl : l ++ [s] <+: [] ++ [e.submission first] ++ [e'.submission second] := hl
    obtain ⟨rfl, rfl⟩ | hl := eq_or_prefix_of_concat hl
    · exact hcreated.rules ▸ hstorable'
    · obtain ⟨rfl, rfl⟩ | hnil := eq_or_prefix_of_concat hl
      · exact hstorable
      · simp at hnil
  obtain ⟨haccounts, hanswers⟩ := accounts_created.2 e'' log hcreated'.reached
  exact ⟨hcreated'.reached, hcreated'.rules, haccounts (hcreated'.rules ▸ hstorable'),
    hanswers hcreated'.fate hprefix⟩

end Engine

end RulePaths
