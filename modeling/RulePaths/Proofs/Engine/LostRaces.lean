import RulePaths.Graph.Veiled
import RulePaths.Proofs.Engine.Snapshots
import RulePaths.Proofs.Rule.Lockstep
import RulePaths.Proofs.Rule.Races

/-!
# Lost races do not show

A veiled store hides one node until a transaction tries to create it and is told that it exists.
That is what a compilation sees if some other writer puts the node there in the meantime. It is
answered as over the store itself, and leaves the same behind, whichever node is hidden: one that
was there before, one that the compilation creates, or one that it never meets.

The reason is that the transaction may as well create every node without looking for it, and look
only if it is told that the node exists. A veil makes it do so for one node.

## Main definitions

- `Compile.createOrFind` — a node is created, and looked for only if it exists
- `Veiled.Veils` — a store with a node hidden and the store itself
- `Veiled.Unnoticed` — a hidden node makes no difference to a compilation

## Main results

- `Compile.createOrFind_eq` — it does not matter whether a node is looked for before it is created
- `Veiled.inStep` — transactions are answered alike with and without the veil
- `Engine.hidden_nodes_unnoticed` — so are compilations, over either store
-/

namespace RulePaths

/-! ### Creating before looking -/

/-- A search leaves everything as it is, and a creation is refused if the search finds the node and
fails if the search fails. -/
structure CreatesAsFound (σ : Type) {τ : Type} [GraphStore σ τ] : Prop where
  find : ∀ kind key (w : σ × τ), (GraphStore.perform (.find kind key) w).2 = w
  found : ∀ kind key (w : σ × τ) n, (GraphStore.perform (.find kind key) w).1 = .ok (some n) →
    GraphStore.perform (.create kind key) w = (.error (.alreadyExists kind key), w)
  failed : ∀ kind key (w : σ × τ) e, (GraphStore.perform (.find kind key) w).1 = .error e →
    GraphStore.perform (.create kind key) w = (.error e, w) ∧
      ∀ kind' key', e ≠ .alreadyExists kind' key'

theorem MemoryStore.perform_apply (c : TxnCall) (w : MemoryStore × MemoryTxn) :
    GraphStore.perform c w =
      match MemoryTxn.perform w.1 w.2 c with
      | .ok (answer, t) => (.ok answer, w.1, t)
      | .error e => (.error e, w) :=
  rfl

theorem MemoryStore.createsAsFound : CreatesAsFound MemoryStore where
  find _ _ _ := rfl
  found kind key w n h := by
    have hfound : w.2.find? w.1 kind key = some n := Except.ok.inj h
    rw [perform_apply, MemoryTxn.perform, MemoryTxn.create, hfound]
    rfl
  failed _ _ _ _ h := nomatch h

theorem Tables.perform_apply (c : TxnCall) (w : Tables × TablesTxn) :
    GraphStore.perform c w =
      match TablesTxn.perform w.2 c with
      | .ok (answer, t) => (.ok answer, w.1, t)
      | .error e => (.error e, w) :=
  rfl

theorem Tables.perform_find (kind : NodeKind) (key : String) (w : Tables × TablesTxn) :
    GraphStore.perform (.find kind key) w =
      ((w.2.tables.loadNode (compositeKey kind key)).map (Option.map NodeRecord.toRef), w) := by
  rw [perform_apply, TablesTxn.perform, TablesTxn.find?]
  cases w.2.tables.loadNode (compositeKey kind key) <;> rfl

theorem Tables.createsAsFound : CreatesAsFound Tables where
  find kind key w := by rw [perform_find]
  found kind key w n h := by
    rw [perform_find] at h
    rw [perform_apply, TablesTxn.perform, TablesTxn.create]
    cases hload : w.2.tables.loadNode (compositeKey kind key) with
    | error e =>
      rw [hload] at h
      cases h
    | ok found =>
      rw [hload] at h
      cases found with
      | none => cases h
      | some _ => rfl
  failed kind key w e h := by
    rw [perform_find] at h
    rw [perform_apply, TablesTxn.perform, TablesTxn.create]
    cases hload : w.2.tables.loadNode (compositeKey kind key) with
    | error e' =>
      rw [hload] at h
      obtain rfl : e' = e := Except.error.inj h
      refine ⟨rfl, ?_⟩
      rintro kind' key' rfl
      exact loadNode_ne_alreadyExists _ _ _ _ hload
    | ok found =>
      rw [hload] at h
      cases h

namespace Compile

open StoreM

variable {σ τ : Type} [GraphStore σ τ]

/-- The node of a kind with a key, which is created and looked for only if it exists. -/
def createOrFind (kind : NodeKind) (key : String) : StoreM (σ × τ) (NodeRef × Bool) := do
  match ← StoreM.observe (GraphStore.perform (.create kind key)) with
  | .ok node => return (node, true)
  | .error (.alreadyExists ..) =>
    match ← GraphStore.perform (.find kind key) with
    | some node => return (node, false)
    | none => throw (.notFound (compositeKey kind key))
  | .error e => throw e

theorem getOrCreate_apply (kind : NodeKind) (key : String) (w : σ × τ) :
    getOrCreate kind key w =
      match GraphStore.perform (.find kind key) w with
      | (.error e, w) => (.error e, w)
      | (.ok (some node), w) => (.ok (node, false), w)
      | (.ok none, w) => createOrFind kind key w := by
  unfold getOrCreate createOrFind
  rw [bind_apply]
  rcases GraphStore.perform (.find kind key) w with ⟨_ | _ | _, _⟩ <;> rfl

/-- A node that exists is the same whether it is looked for at once or after its creation was
refused. -/
theorem createOrFind_eq (h : CreatesAsFound σ) (kind : NodeKind) (key : String) (w : σ × τ) :
    createOrFind kind key w = getOrCreate kind key w := by
  rw [getOrCreate_apply]
  have hkeeps := h.find kind key w
  cases hfind : GraphStore.perform (.find kind key) w with
  | mk r w' =>
    rw [hfind] at hkeeps
    obtain rfl : w' = w := hkeeps
    have hanswer := congrArg Prod.fst hfind
    cases r with
    | error e =>
      obtain ⟨hcreate, hne⟩ := h.failed kind key w' e hanswer
      rw [createOrFind, bind_apply, observe_apply, hcreate]
      cases e with
      | alreadyExists kind' key' => exact absurd rfl (hne kind' key')
      | _ => rfl
    | ok found =>
      cases found with
      | none => rfl
      | some node =>
        rw [createOrFind, bind_apply, observe_apply, h.found kind key w' node hanswer]
        dsimp only
        rw [bind_apply, hfind]
        rfl

end Compile

/-! ### Veils -/

namespace Veiled

open StoreM Compile

variable {σ τ : Type} [GraphStore σ τ] {v : Veil}

/-- The store with a node hidden, and the store itself. -/
def Veils (v : Veil) (s' : Veiled σ) (s : σ) : Prop :=
  s'.inner = s ∧ s'.veil = some v

/-- A transaction over a store with a node hidden, and the same transaction over the store
itself. -/
def VeilsWith (v : Veil) (w' : Veiled σ × VeiledTxn τ) (w : σ × τ) : Prop :=
  Veils v w'.1 w.1 ∧ w'.2.inner = w.2

omit [GraphStore σ τ] in
theorem lockstep_pass {α : Type} (m : StoreM σ α) : Lockstep (Veils v) (pass m) m := by
  rintro ⟨_, _⟩ s ⟨rfl, rfl⟩
  exact ⟨_, _, _, rfl, rfl, rfl, rfl⟩

omit [GraphStore σ τ] in
theorem lockstep_passWith {α : Type} (m : StoreM (σ × τ) α) :
    Lockstep (VeilsWith v) (passWith m) m := by
  rintro ⟨⟨_, _⟩, ⟨_, _⟩⟩ ⟨s, t⟩ ⟨⟨rfl, rfl⟩, rfl⟩
  exact ⟨_, _, _, rfl, rfl, ⟨rfl, rfl⟩, rfl⟩

theorem lockstep_perform (c : TxnCall) (hc : c.sort ≠ .find) :
    Lockstep (VeilsWith (σ := σ) v) (GraphStore.perform c) (GraphStore.perform c) := by
  cases c with
  | find => exact absurd rfl hc
  | create kind key =>
    rintro ⟨⟨_, _⟩, ⟨_, _⟩⟩ ⟨s, t⟩ ⟨⟨rfl, rfl⟩, rfl⟩
    exact ⟨_, _, _, rfl, rfl, ⟨rfl, rfl⟩, rfl⟩
  | setNode node name value => exact lockstep_passWith _
  | link kind source target => exact lockstep_passWith _
  | setEdge edge name value => exact lockstep_passWith _

/-- A transaction does not find the node that is hidden from it. -/
theorem perform_find_of_hidden {kind : NodeKind} {key : String} {w : Veiled σ × VeiledTxn τ}
    (hveil : w.1.veil = some v) (hcovers : v.covers kind key = true)
    (hrevealed : w.2.revealed = false) :
    GraphStore.perform (.find kind key) w = (.ok none, w) := by
  simp [GraphStore.perform, performVeiled, hides, hveil, hcovers, hrevealed]

/-- It finds any other node as it does without the veil. -/
theorem perform_find_of_seen {kind : NodeKind} {key : String} {w' : Veiled σ × VeiledTxn τ}
    {w : σ × τ} (hw : VeilsWith v w' w)
    (hseen : v.covers kind key = true → w'.2.revealed = true) :
    Alike (VeilsWith v) (GraphStore.perform (.find kind key) w')
      (GraphStore.perform (.find kind key) w) := by
  have hpass : GraphStore.perform (.find kind key) w' =
      passWith (GraphStore.perform (.find kind key)) w' := by
    have hopen : ¬ (w'.1.hides kind key && !w'.2.revealed) = true := by
      simpa [hides, hw.1.2] using hseen
    simp only [GraphStore.perform, performVeiled, if_neg hopen]
  rw [hpass]
  exact lockstep_passWith _ w' w hw

/-- A creation that is refused reveals the node. -/
theorem revealed_of_refused {kind kind' : NodeKind} {key key' : String}
    {w u : Veiled σ × VeiledTxn τ} (hveil : w.1.veil = some v) (hlifts : v.lifts = true)
    (hrefused : GraphStore.perform (.create kind key) w = (.error (.alreadyExists kind' key'), u))
    (hcovers : v.covers kind key = true) : u.2.revealed = true := by
  obtain ⟨⟨s, _⟩, ⟨t, revealed⟩⟩ := w
  cases hveil
  have hveiled : GraphStore.perform (.create kind key)
      ((⟨s, some v⟩ : Veiled σ), (⟨t, revealed⟩ : VeiledTxn τ)) =
      let (r, s, t) := GraphStore.perform (.create kind key) (s, t)
      (r, ⟨s, some v⟩, ⟨t, revealed || reveals ⟨s, some v⟩ kind key r⟩) :=
    rfl
  obtain ⟨hanswer, rfl⟩ := Prod.mk.inj (hveiled.symm.trans hrefused)
  simp only [hanswer, reveals, Option.any_some, hcovers, hlifts, Bool.and_self, Bool.or_true]

theorem lockstep_createOrFind (hlifts : v.lifts = true) (kind : NodeKind) (key : String) :
    Lockstep (VeilsWith (σ := σ) v) (createOrFind kind key) (createOrFind kind key) := by
  intro w' w hw
  obtain ⟨r, u', u, hrun', hrun, hleft⟩ := lockstep_perform (.create kind key) nofun w' w hw
  rw [createOrFind, createOrFind, bind_apply, bind_apply, observe_apply, observe_apply, hrun',
    hrun]
  cases r with
  | ok node => exact ⟨_, _, _, rfl, rfl, hleft⟩
  | error e =>
    cases e with
    | alreadyExists kind' key' =>
      -- the refusal lifts the veil before the node is read again
      have hseen := revealed_of_refused hw.1.2 hlifts hrun'
      obtain ⟨found, x', x, hfind', hfind, hfound⟩ := perform_find_of_seen hleft hseen
      dsimp only
      rw [bind_apply, bind_apply, hfind', hfind]
      rcases found with e | _ | node <;> exact ⟨_, _, _, rfl, rfl, hfound⟩
    | _ => exact ⟨_, _, _, rfl, rfl, hleft⟩

/-- Nodes are found or created alike. A hidden node is created before it is looked for, which makes
no difference. -/
theorem lockstep_getOrCreate (h : CreatesAsFound σ) (hlifts : v.lifts = true) (kind : NodeKind)
    (key : String) :
    Lockstep (VeilsWith (σ := σ) v) (getOrCreate kind key) (getOrCreate kind key) := by
  intro w' w hw
  by_cases hhidden : v.covers kind key = true ∧ w'.2.revealed = false
  · -- behind the veil the node is looked for in vain, so both may go on from the creation
    rw [← createOrFind_eq h, getOrCreate_apply,
      perform_find_of_hidden hw.1.2 hhidden.1 hhidden.2]
    exact lockstep_createOrFind hlifts kind key w' w hw
  · have hseen : v.covers kind key = true → w'.2.revealed = true := by
      simpa using hhidden
    obtain ⟨r, u', u, hrun', hrun, hleft⟩ := perform_find_of_seen hw hseen
    rw [getOrCreate_apply, getOrCreate_apply, hrun', hrun]
    rcases r with e | _ | node
    · exact ⟨_, _, _, rfl, rfl, hleft⟩
    · exact lockstep_createOrFind hlifts kind key u' u hleft
    · exact ⟨_, _, _, rfl, rfl, hleft⟩

theorem start_apply (s : Veiled σ) :
    GraphStore.start s =
      match GraphStore.start s.inner with
      | (.ok t, inner) => (.ok ⟨t, false⟩, { s with inner })
      | (.error e, inner) => (.error e, { s with inner }) := by
  have hbind : (GraphStore.start : StoreM (Veiled σ) (VeiledTxn τ)) =
      pass GraphStore.start >>= fun t => pure ⟨t, false⟩ :=
    rfl
  have hpass : pass GraphStore.start s =
      ((GraphStore.start s.inner).1, { s with inner := (GraphStore.start s.inner).2 }) :=
    rfl
  rw [hbind, bind_apply, hpass]
  rcases GraphStore.start s.inner with ⟨_ | _, _⟩ <;> rfl

/-- Transactions are answered alike with and without the veil. -/
theorem inStep (h : CreatesAsFound σ) (hlifts : v.lifts = true) :
    InStep (Veils (σ := σ) v) (VeilsWith v) where
  start {s' s} hs := by
    obtain ⟨s, _⟩ := s'
    obtain ⟨rfl, rfl⟩ := hs
    rw [start_apply]
    dsimp only
    rcases GraphStore.start s with ⟨e | t, s₁⟩
    · exact .inl ⟨_, _, _, rfl, rfl, rfl, rfl⟩
    · exact .inr ⟨_, _, _, _, rfl, rfl, ⟨rfl, rfl⟩, rfl⟩
  getOrCreate := lockstep_getOrCreate h hlifts
  perform := lockstep_perform
  commit {s' t' s t} hw := by
    obtain ⟨hs, rfl⟩ := hw
    exact lockstep_pass (GraphStore.commit t'.inner) s' s hs
  rollback {s' t' s t} hw := by
    obtain ⟨hs, rfl⟩ := hw
    exact lockstep_pass (GraphStore.rollback t'.inner) s' s hs

omit [GraphStore σ τ] in
theorem pass_keeps {α : Type} {m : StoreM σ α} {s : Veiled σ} (h : (m s.inner).2 = s.inner) :
    (pass m s).2 = s := by
  change { s with inner := (m s.inner).2 } = s
  rw [h]

omit [GraphStore σ τ] in
theorem passWith_keeps {α : Type} {m : StoreM (σ × τ) α} {w : Veiled σ × VeiledTxn τ}
    (h : (m (w.1.inner, w.2.inner)).2.1 = w.1.inner) : (passWith m w).2.1 = w.1 := by
  change { w.1 with inner := (m (w.1.inner, w.2.inner)).2.1 } = w.1
  rw [h]

theorem keepsCommitted (h : KeepsCommitted σ) : KeepsCommitted (Veiled σ) where
  lookup kind key s := by
    dsimp only [GraphStore.lookup]
    split
    · rfl
    · exact pass_keeps (h.lookup kind key s.inner)
  start s := by
    have hkeeps := h.start s.inner
    rw [start_apply]
    rcases hstart : GraphStore.start s.inner with ⟨_ | _, inner⟩ <;> rw [hstart] at hkeeps <;>
      cases hkeeps <;> rfl
  perform c w := by
    have hpass := passWith_keeps (w := w) (h.perform c (w.1.inner, w.2.inner))
    cases c with
    | find kind key =>
      dsimp only [GraphStore.perform, performVeiled]
      split
      · rfl
      · exact hpass
    | _ => exact hpass
  rollback t s := pass_keeps (h.rollback t.inner s.inner)
  commit t s e herror := pass_keeps (h.commit t.inner s.inner e herror)

/-- A transaction meets a hidden node as it meets any other that it does not look for. -/
theorem meetsLookups (h : MeetsLookups σ) : MeetsLookups (Veiled σ) where
  toKeepsCommitted := keepsCommitted h.toKeepsCommitted
  begins s := by
    obtain ⟨t, hstart, ht⟩ := h.begins s.inner
    refine ⟨⟨t, false⟩, by rw [start_apply, hstart], fun kind key => ?_⟩
    dsimp only [GraphStore.lookup]
    split
    · exact ⟨fun n hn => (nomatch hn), fun e he => (nomatch he)⟩
    · exact ht kind key
  ends t s := by
    have hends := h.ends t.inner s.inner
    have hanswer : (GraphStore.rollback t s).1 = .ok () := congrArg Prod.fst hends
    exact Prod.ext hanswer (pass_keeps (congrArg Prod.snd hends))

/-- A compilation over the store with a node hidden until its creation is refused is answered as
over the store itself, and leaves the same behind. -/
structure Unnoticed (m : Minimizer) (id formula : String) (kind : NodeKind) (key : String)
    (s : σ) : Prop where
  answer : (compile m id formula (⟨s, some ⟨kind, key, true⟩⟩ : Veiled σ)).1 =
    (compile m id formula s).1
  left : (compile m id formula (⟨s, some ⟨kind, key, true⟩⟩ : Veiled σ)).2 =
    ⟨(compile m id formula s).2, some ⟨kind, key, true⟩⟩
  snapshot :
    (GraphStore.snapshot (compile m id formula (⟨s, some ⟨kind, key, true⟩⟩ : Veiled σ)).2).1 =
      (GraphStore.snapshot (compile m id formula s).2).1

/-- The lookup may miss the rule, but the transaction does not. -/
theorem unnoticed (h : CreatesAsFound σ) (hmeets : MeetsLookups σ) {m : Minimizer}
    {id formula : String} (hid : Blank.isBlankText id = false) {paths : List String}
    (hpaths : m.paths formula = .ok paths) (kind : NodeKind) (key : String) (s : σ) :
    Unnoticed m id formula kind key s := by
  have hstep := inStep (v := ⟨kind, key, true⟩) h rfl
  have hveils : Veils ⟨kind, key, true⟩ (⟨s, some ⟨kind, key, true⟩⟩ : Veiled σ) s := ⟨rfl, rfl⟩
  obtain ⟨answer, s', u, hrun', hrun, ⟨rfl, hveil⟩⟩ := hstep.enact id formula paths hveils
  rw [← compile_eq_enact (meetsLookups hmeets) hid hpaths] at hrun'
  rw [← compile_eq_enact hmeets hid hpaths] at hrun
  obtain ⟨inner, _⟩ := s'
  cases hveil
  constructor <;> rw [hrun', hrun]
  rfl

end Veiled

namespace Engine

open Veiled

/-- Over the store of a run, with room for one more rule, a rule with an id that is not blank and a
formula that has paths is acknowledged. -/
theorem Reached.acknowledged {σ τ : Type} [GraphStore σ τ] [Storage σ] {B : Backend σ}
    {e : Engine (Fallible σ)} {log : List Submission} (h : Reached e log) {m : Minimizer}
    {rule : RuleDefinition} (hid : Blank.isBlankText rule.id = false) {paths : List String}
    (hpaths : m.paths rule.formula = .ok paths)
    (hroom : B.Room (ruleGraph (createdRules log ++ [rule]))) :
    ∃ a, (compile m rule.id rule.formula e.store.inner).1 = .ok a := by
  have htracks := h.tracks (B.room_of_below (below_ruleGraph_append _ _) hroom)
  -- the same store, with no call fated to fail
  let s : Fallible σ := ⟨e.store.inner, fun _ => none, []⟩
  have hsettled := Compile.settled_compile (s := s) htracks.shows m rule.id rule.formula
    fun paths hpaths => by
      rw [(Minimizer.pathsOf_of_paths hpaths).1, ← ruleGraph_concat]
      exact hroom
  have hmirrors : s.Mirrors e.store.inner := ⟨rfl, fun _ => rfl⟩
  obtain ⟨answer, _, _, hrun', hrun, _⟩ :=
    Fallible.compile_mirrors m rule.id rule.formula hmirrors
  rw [hrun]
  rw [hrun'] at hsettled
  cases hsettled with
  | blank hblank _ => exact absurd (hid.symm.trans hblank) Bool.false_ne_true
  | duplicate _ _ hanswer => exact ⟨_, hanswer⟩
  | rejected _ _ herror _ =>
    obtain ⟨_, herror⟩ := herror
    cases hpaths.symm.trans herror
  | created _ _ _ _ _ hanswer _ _ => exact ⟨_, hanswer⟩
  | failed _ hfated =>
    obtain ⟨n, _, hn⟩ := hfated
    exact absurd rfl hn

/-- No compilation with an id that is not blank and a formula that has paths notices that a node is
hidden, over either store, whatever it holds. Over the store of a run it is acknowledged. -/
theorem hidden_nodes_unnoticed {m : Minimizer} {rule : RuleDefinition}
    (hid : Blank.isBlankText rule.id = false) {paths : List String}
    (hpaths : m.paths rule.formula = .ok paths) :
    (∀ (kind : NodeKind) (key : String),
      (∀ s : MemoryStore, Unnoticed m rule.id rule.formula kind key s) ∧
        ∀ s : Tables, Unnoticed m rule.id rule.formula kind key s) ∧
    (∀ (e : Engine (Fallible MemoryStore)) (log : List Submission), Reached e log →
      ∃ a, (compile m rule.id rule.formula e.store.inner).1 = .ok a) ∧
    ∀ (e : Engine (Fallible Tables)) (log : List Submission), Reached e log →
      (ruleGraph (createdRules log ++ [rule])).Storable →
        ∃ a, (compile m rule.id rule.formula e.store.inner).1 = .ok a := by
  refine ⟨fun kind key => ⟨fun s => ?_, fun s => ?_⟩, fun e log h => ?_,
    fun e log h hstorable => ?_⟩
  · exact unnoticed MemoryStore.createsAsFound MemoryStore.meetsLookups hid hpaths kind key s
  · exact unnoticed Tables.createsAsFound Tables.meetsLookups hid hpaths kind key s
  · exact h.acknowledged (B := MemoryStore.backend) hid hpaths trivial
  · exact h.acknowledged (B := Tables.backend) hid hpaths hstorable

/-- An attribute is hidden that the compilation itself creates for one path and meets again in the
next one. -/
theorem hidden_nodes_unnoticed_sharedAttribute :
    let first : RuleDefinition := ⟨"a", "0&1|2"⟩
    let rule : RuleDefinition := ⟨"b", "3&4|3&5"⟩
    let e : Engine (Fallible Tables) := fresh (.durable "graph")
    let e' : Engine (Fallible Tables) := ⟨.inMemory, (createRule first.id first.formula e).2.store⟩
    let log := [e.submission first]
    Blank.isBlankText rule.id = false ∧ e'.minimizer.paths rule.formula = .ok ["3&4", "3&5"] ∧
      Reached e' log ∧ (ruleGraph (createdRules log ++ [rule])).Storable ∧
      Unnoticed e'.minimizer rule.id rule.formula .attr "3" e'.store.inner ∧
      ∃ a, (compile e'.minimizer rule.id rule.formula e'.store.inner).1 = .ok a := by
  intro first rule e e' log
  have hfirst : Blank.isBlankText first.id = false := by decide +kernel
  have hid : Blank.isBlankText rule.id = false := by decide +kernel
  have hpathsFirst : (Config.durable "graph").minimizer.paths first.formula =
      .ok ["0&1", "2"] := by
    cbv
  have hpaths : (Config.durable "graph").minimizer.paths rule.formula = .ok ["3&4", "3&5"] := by
    cbv
  have hstorable : (ruleGraph [first]).Storable := by
    rw [ruleGraph_singleton hpathsFirst]
    decide +kernel
  have hstorable' : (ruleGraph [first, rule]).Storable := by
    rw [ruleGraph_pair hpathsFirst hpaths]
    decide +kernel
  obtain ⟨hreached, hcreated, _⟩ : HasCreated e' log [first] :=
    hasCreated_reopened rfl rfl hfirst hpathsFirst hstorable
  have hroom : (ruleGraph (createdRules log ++ [rule])).Storable := hcreated ▸ hstorable'
  obtain ⟨hunnoticed, _, hacknowledged⟩ := hidden_nodes_unnoticed hid hpaths
  exact ⟨hid, hpaths, hreached, hroom, (hunnoticed .attr "3").2 e'.store.inner,
    hacknowledged e' log hreached hroom⟩

end Engine

end RulePaths
