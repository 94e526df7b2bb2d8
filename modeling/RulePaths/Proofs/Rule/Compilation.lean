import RulePaths.Proofs.Rule.Atomicity
import RulePaths.Proofs.Rule.RuleGraph
import RulePaths.Proofs.Store.Backend

/-!
# What a compilation does to the graph

Over a store that holds a graph, a compilation that creates its rule leaves the graph with this
rule added, and counts what was new. If no call is fated to fail, it creates the rule exactly if
the id is not blank and not taken and the formula has paths.

## Main results

- `Compile.runs_linkPath` — one more path is linked to a rule
- `Compile.settled_compile` — what becomes of a compilation
-/

namespace RulePaths

open Snapshot StoreM Fallible

namespace Compile

variable {σ τ : Type} [GraphStore σ τ] [Storage σ] {B : Backend σ} {base g : Snapshot}
  {kind : NodeKind} {key : String}

theorem runs_find (base g : Snapshot) (kind : NodeKind) (key : String) :
    B.Runs base (GraphStore.perform (.find kind key)) g
      (· = (g.node? kind key).map NodeRecord.toRef) g :=
  .perform (c := .find kind key) trivial rfl

/-- A node is found or created. -/
theorem runs_getOrCreate (base g : Snapshot) (kind : NodeKind) (key : String) :
    B.Runs base (getOrCreate kind key) g
      (· = (g.refOf kind key, (g.node? kind key).isNone)) (g.ensure kind key) := by
  unfold getOrCreate
  refine (runs_find base g kind key).bind (below_ensure kind g key) ?_
  rintro _ rfl
  obtain ⟨n, hn, hensure, href⟩ | ⟨hnew, hensure, href⟩ := ensure_cases g kind key
  · rw [hn, hensure, href]
    exact .pure rfl
  · rw [hnew, hensure, href]
    refine .observe_create hnew (.refl _) (.pure rfl) fun e => ?_
    cases e with
    | alreadyExists _ _ =>
      -- the node is still missing when it is looked for again
      refine (runs_find base g kind key).bind_fails ?_
      rintro _ rfl
      rw [hnew]
      exact .throw _
    | _ => exact .throw _

/-! ### Paths -/

/-- The attributes are found or created in turn. The first one is the one that leads. -/
theorem runs_getOrCreateAll (base g : Snapshot) (keys : List String) :
    B.Runs base (keys.mapM (getOrCreate .attr)) g
      (fun found => found.head?.map Prod.fst = keys.head?.map (g.refOf .attr) ∧
        g.counts.attributes + found.countP Prod.snd =
          (keys.foldl (ensure .attr) g).counts.attributes)
      (keys.foldl (ensure .attr) g) := by
  induction keys generalizing g with
  | nil => exact .pure ⟨rfl, rfl⟩
  | cons key keys ih =>
    rw [List.mapM_cons]
    refine (runs_getOrCreate base g .attr key).bind (below_ensureAll keys .attr _) ?_
    rintro _ rfl
    refine (ih (g.ensure .attr key)).bind (.refl _) fun found ⟨_, hcount⟩ => .pure ⟨rfl, ?_⟩
    rw [List.foldl_cons, ← hcount, counts_ensure_attributes, List.countP_cons]
    cases (g.node? .attr key).isNone
    · simp
    · simp; omega

/-- A path that was just created gets its attributes and the edge from the first of them. -/
theorem runs_completePath (hbase : Below base g) (hg : g.Sound) (path : String) {node : NodeRef}
    (hnode : g.Has node) :
    B.Runs base (completePath path node) g
      (fun new => g.counts.attributes + new = (g.completePath path node.id).counts.attributes)
      (g.completePath path node.id) := by
  unfold Compile.completePath attributesOf
  have hall := below_ensureAll (Path.attributeTokens path) .attr g
  obtain ⟨lead, htoken, heq⟩ | ⟨htoken, heq⟩ := completePath_cases g path node.id
  · rw [heq]
    refine (runs_getOrCreateAll base g (Path.attributeTokens path)).bind (.addEdge _ _ _ _ _)
      fun found ⟨hlead, hcount⟩ => ?_
    rw [htoken, Option.map_some, Option.map_eq_some_iff] at hlead
    obtain ⟨⟨ref, isNew⟩, hhead, rfl⟩ := hlead
    rw [hhead]
    have hlink : TxnCall.Honest ((Path.attributeTokens path).foldl (ensure .attr) g)
        (.link .inPath (g.refOf .attr lead) node) :=
      ⟨hg.has_lead htoken .attr, hnode.ensureAll _ _⟩
    refine (Backend.Runs.perform hlink rfl).bind (.addEdge_empty _ _ _ _ _) ?_
    rintro _ rfl
    have hset := perform_setEdge_new (hbase.trans hall) .inPath (g.refOf .attr lead).id node.id
      pathProperty path
    exact (Backend.Runs.perform (c := .setEdge _ pathProperty path) trivial hset).bind (.refl _)
      fun _ _ => .pure hcount
  · rw [heq]
    refine (runs_getOrCreateAll base g (Path.attributeTokens path)).bind (.refl _)
      fun found ⟨hlead, hcount⟩ => ?_
    rw [htoken, Option.map_none, Option.map_eq_none_iff] at hlead
    rw [hlead]
    exact .pure hcount

/-- The graph `h` has grown from the graph `g` by what was counted. -/
structure Counted (g h : Snapshot) (c : Creation) : Prop where
  newPaths : g.counts.paths + c.newPaths = h.counts.paths
  newAttributes : g.counts.attributes + c.newAttributes = h.counts.attributes

/-- One more path is linked to a rule. -/
theorem runs_linkPath (hbase : Below base g) (hg : g.Sound) {rule : NodeRef} (hrule : g.Has rule)
    {start : Snapshot} {c : Creation} (hc : Counted start g c) (path : String) :
    B.Runs base (linkPath rule c path) g
      (fun c' => c'.paths = c.paths + 1 ∧ Counted start (g.linkPath rule.id path) c')
      (g.linkPath rule.id path) := by
  have hbelow : Below (g.ensurePath path) (g.linkPath rule.id path) := .addEdge _ _ _ _ _
  have hlink : ∀ (isNew : Bool) (new : Nat),
      g.counts.paths + isNew.toNat = (g.ensurePath path).counts.paths →
      g.counts.attributes + new = (g.ensurePath path).counts.attributes →
      B.Runs base (do
        let _ ← GraphStore.perform (σ := Fallible σ) (τ := τ)
          (.link .hasRule (g.refOf .path path) rule)
        return (⟨c.paths + 1, c.newPaths + isNew.toNat, c.newAttributes + new⟩ : Creation))
      (g.ensurePath path)
      (fun c' => c'.paths = c.paths + 1 ∧ Counted start (g.linkPath rule.id path) c')
      (g.linkPath rule.id path) := by
    intro isNew new hpaths hattributes
    have hhonest : TxnCall.Honest (g.ensurePath path) (.link .hasRule (g.refOf .path path) rule) :=
      ⟨hg.has_ensurePath path, hrule.ensurePath path⟩
    refine (Backend.Runs.perform hhonest rfl).bind (.refl _) fun _ _ => .pure ⟨rfl, ?_, ?_⟩
    · have := hc.newPaths
      show _ = (g.ensurePath path).counts.paths
      dsimp only
      omega
    · have := hc.newAttributes
      show _ = (g.ensurePath path).counts.attributes
      dsimp only
      omega
  unfold Compile.linkPath
  refine (runs_getOrCreate base g .path path).bind
    ((below_ensure_ensurePath g path).trans hbelow) ?_
  rintro _ rfl
  obtain ⟨n, hn, heq, _⟩ | ⟨hnew, heq, href⟩ := ensurePath_cases g path
  · rw [hn, ensure_of_node? hn]
    rw [heq] at hlink
    exact hlink false 0 rfl rfl
  · rw [hnew, ensure_of_none hnew]
    have hcomplete := runs_completePath (B := B) (hbase.trans (.addNode g .path path .empty))
      (hg.addNode hnew .empty) path (has_new g .path path .empty)
    rw [counts_addNode_attributes] at hcomplete
    refine Backend.Runs.bind (m := completePath path (g.refOf .path path)) ?_ hbelow
      fun new hcount => hlink true new ?_ hcount
    · rw [heq, href]
      exact hcomplete
    · rw [heq, counts_completePath_paths, counts_addNode_paths]
      rfl

theorem runs_linkPaths (hbase : Below base g) (hg : g.Sound) {rule : NodeRef} (hrule : g.Has rule)
    {start : Snapshot} {c : Creation} (hc : Counted start g c) (paths : List String) :
    B.Runs base (paths.foldlM (linkPath rule) c) g
      (fun c' => c'.paths = c.paths + paths.length ∧
        Counted start (paths.foldl (Snapshot.linkPath rule.id) g) c')
      (paths.foldl (Snapshot.linkPath rule.id) g) := by
  induction paths generalizing g c with
  | nil => exact .pure ⟨rfl, hc⟩
  | cons path paths ih =>
    rw [List.foldlM_cons, List.foldl_cons]
    refine (runs_linkPath hbase hg hrule hc path).bind (below_linkPaths _ _ paths)
      fun c' ⟨hlength, hc'⟩ => ?_
    refine (ih (hbase.trans (below_linkPath rule.id g path)) (hg.linkPath hrule path)
      (hrule.linkPath rule.id path) hc').mono fun c'' ⟨hlength', hc''⟩ => ⟨?_, hc''⟩
    rw [hlength', hlength, List.length_cons]
    omega

/-! ### Rules -/

/-- What was created for a rule: all its paths, and what is new in the graph. -/
structure Created (g : Snapshot) (id formula : String) (paths : List String) (c : Creation) :
    Prop where
  length : c.paths = paths.length
  counted : Counted g (g.addRule id formula paths) c

/-- A rule whose id is free is written with all its paths, unless some call is fated to fail. -/
theorem materialize_cases (hg : g.Sound) {id : String} (hnew : g.node? .rule id = none)
    (formula : String) (paths : List String) (hroom : B.Room (g.addRule id formula paths))
    {w : Fallible σ × τ} (hw : B.StagesIn w g g) :
    w.1.Continues (materialize id formula paths w).2.1 ∧
      ((∃ c, (materialize id formula paths w).1 = .ok (some c) ∧ Created g id formula paths c ∧
          B.StagesIn (materialize id formula paths w).2 g (g.addRule id formula paths)) ∨
        (∀ c, (materialize id formula paths w).1 ≠ .ok (some c)) ∧ w.1.Fated) := by
  have hwrite : B.Runs g (do
      GraphStore.perform (σ := Fallible σ) (τ := τ)
        (.setNode ⟨g.nodes.length, .rule, id⟩ formulaProperty formula)
      let c ← paths.foldlM (linkPath ⟨g.nodes.length, .rule, id⟩) ⟨0, 0, 0⟩
      return some c) (g.addNode .rule id .empty)
      (fun r => ∃ c, r = some c ∧ Created g id formula paths c) (g.addRule id formula paths) := by
    have hset := perform_setNode_new (.refl g) .rule id formulaProperty formula
    have hbelow := Below.addNode g .rule id (ruleProperties formula)
    refine (Backend.Runs.perform (c := .setNode _ formulaProperty formula)
      (has_new g .rule id .empty) hset).bind (below_linkPaths _ _ paths) fun _ _ => ?_
    have hcounted : Counted g (g.addNode .rule id (ruleProperties formula)) ⟨0, 0, 0⟩ :=
      ⟨(counts_addNode_paths g .rule id _).symm, (counts_addNode_attributes g .rule id _).symm⟩
    refine (runs_linkPaths hbelow (hg.addNode hnew _) (has_new g .rule id _) hcounted paths).bind
      (.refl _) fun c ⟨hlength, hc⟩ => .pure ⟨c, rfl, ?_, hc⟩
    simpa using hlength
  have hcreate : Snapshot.perform g g (.create .rule id) =
      .ok (⟨g.nodes.length, .rule, id⟩, g.addNode .rule id .empty) := by
    simp [Snapshot.perform, hnew]
  have hbelow : Below (g.addNode .rule id .empty) (g.addRule id formula paths) :=
    (Below.addNode_empty g .rule id _).trans (below_linkPaths _ _ paths)
  rw [materialize, bind_apply, observe_apply]
  obtain ⟨hnext, ⟨hanswer, hstages⟩ | ⟨⟨e, hanswer⟩, hfated, _⟩⟩ :=
    Backend.perform_cases (c := .create .rule id) hw trivial hcreate (B.room_of_below hbelow hroom)
  · dsimp only
    rw [hanswer]
    obtain ⟨hnext', ⟨_, hok, ⟨c, rfl, hc⟩, hstages'⟩ | ⟨⟨e, herror⟩, hfated⟩⟩ :=
      hwrite hroom _ hstages
    · exact ⟨hnext.trans hnext', .inl ⟨c, hok, hc, hstages'⟩⟩
    · refine ⟨hnext.trans hnext', .inr ⟨fun c hc => ?_, hnext.fated hfated⟩⟩
      cases herror.symm.trans hc
  · dsimp only
    rw [hanswer]
    -- a creation that was refused ends the transaction, and so does any other error
    cases e <;> refine ⟨hnext, .inr ⟨fun c hc => ?_, hfated⟩⟩ <;> cases hc

/-! ### The two steps -/

/-- One transaction adds the rule to the graph, unless some call is fated to fail. -/
theorem enact_cases {s : Fallible σ} (hs : B.Shows s.inner g) {id : String}
    (hnew : g.node? .rule id = none) (formula : String) (paths : List String)
    (hroom : B.Room (g.addRule id formula paths)) :
    (∃ c, (enact id formula paths s).1 = .ok (.created formula c) ∧
        Created g id formula paths c ∧
        B.Shows (enact id formula paths s).2.inner (g.addRule id formula paths)) ∨
      (∀ a, (enact id formula paths s).1 = .ok a → a.isNoop = true) ∧ s.Fated := by
  obtain ⟨t, hstart, hstages⟩ := B.start hs
  unfold enact
  rcases attempt_cases .start hstart with h | ⟨e, h, hfated⟩
  · change GraphStore.start s = _ at h
    rw [h]
    obtain ⟨hnext, hcases⟩ := materialize_cases (B.sound hstages) hnew formula paths hroom
      (w := ({ s with calls := ⟨.start, none⟩ :: s.calls }, t)) hstages
    have hfated := (continues_calls s ⟨.start, none⟩).fated
    dsimp only at hcases ⊢
    cases hrun : materialize id formula paths
      ({ s with calls := ⟨.start, none⟩ :: s.calls }, t) with
    | mk r w =>
      obtain ⟨s₂, t₂⟩ := w
      rw [hrun] at hcases hnext
      rcases hcases with ⟨c, rfl, hc, hstages₂⟩ | ⟨hfailed, hfated₂⟩
      · obtain ⟨inner, hcommit, hshows⟩ := B.commit hstages₂
        rcases attempt_cases .commit hcommit with h₃ | ⟨e, h₃, hfated₃⟩
        · change GraphStore.commit t₂ s₂ = _ at h₃
          dsimp only
          rw [h₃]
          exact .inl ⟨c, rfl, hc, hshows⟩
        · change GraphStore.commit t₂ s₂ = _ at h₃
          dsimp only
          rw [h₃]
          exact .inr ⟨nofun, hfated (hnext.fated hfated₃)⟩
      · refine .inr ⟨fun a ha => ?_, hfated hfated₂⟩
        cases r with
        | error e => cases ha
        | ok written =>
          cases written with
          | some c => exact absurd rfl (hfailed c)
          | none =>
            dsimp only at ha
            split at ha
            · cases ha
              rfl
            · cases ha
  · change GraphStore.start s = _ at h
    rw [h]
    exact .inr ⟨nofun, hfated⟩

/-- What becomes of a compilation over a store `s` that holds the graph `g`. -/
inductive Settled (B : Backend σ) (m : Minimizer) (id formula : String) (g : Snapshot)
    (s : Fallible σ) (out : Except Failure Acknowledgment × Fallible σ) : Prop where
  | blank (hblank : Blank.isBlankText id = true) (herror : ∃ e, out.1 = .error e)
  | duplicate (hid : Blank.isBlankText id = false) (hnode : g.node? .rule id ≠ none)
    (hanswer : out.1 = .ok (.duplicate id))
  | rejected (hid : Blank.isBlankText id = false) (hnode : g.node? .rule id = none)
    (hpaths : ∃ e, m.paths formula = .error e) (herror : ∃ e, out.1 = .error e)
  | created (hid : Blank.isBlankText id = false) (hnode : g.node? .rule id = none)
    (paths : List String) (hpaths : m.paths formula = .ok paths) (c : Creation)
    (hanswer : out.1 = .ok (.created formula c)) (hc : Created g id formula paths c)
    (hshows : B.Shows out.2.inner (g.addRule id formula paths))
  /-- Some call was fated to fail, and nothing was created. -/
  | failed (hanswer : ∀ a, out.1 = .ok a → a.isNoop = true) (hfated : s.Fated)

theorem settled_compile {s : Fallible σ} (hs : B.Shows s.inner g) (m : Minimizer)
    (id formula : String)
    (hroom : ∀ paths, m.paths formula = .ok paths → B.Room (g.addRule id formula paths)) :
    Settled B m id formula g s (compile m id formula s) := by
  rw [compile_apply, prepare_apply]
  cases hblank : Blank.isBlankText id with
  | true => exact .blank hblank ⟨_, rfl⟩
  | false =>
    rw [if_neg Bool.false_ne_true]
    rcases attempt_cases .lookup (B.lookup hs .rule id) with h | ⟨e, h, hfated⟩
    · change GraphStore.lookup .rule id s = _ at h
      rw [h]
      cases hnode : g.node? .rule id with
      | some n => exact .duplicate hblank (by simp [hnode]) rfl
      | none =>
        cases hpaths : m.paths formula with
        | error e => exact .rejected hblank hnode ⟨e, hpaths⟩ ⟨_, rfl⟩
        | ok paths =>
          rcases enact_cases (s := { s with calls := ⟨.lookup, none⟩ :: s.calls }) hs hnode formula
            paths (hroom paths hpaths) with ⟨c, hanswer, hc, hshows⟩ | ⟨hanswer, hfated⟩
          · exact .created hblank hnode paths hpaths c hanswer hc hshows
          · exact .failed hanswer ((continues_calls s _).fated hfated)
    · change GraphStore.lookup .rule id s = _ at h
      rw [h]
      exact .failed nofun hfated

end Compile

end RulePaths
