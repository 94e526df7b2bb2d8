import RulePaths.Proofs.Rule.Content
import Mathlib.Data.List.Flatten

/-!
# Rule graphs are well-formed

A graph that proper rules were added to has the shape of a rule graph: an attribute leads every
path, every path leads on to a rule, nothing is there twice, and nothing is there that no path
needs.

## Main definitions

- `Snapshot.WellFormed` — the shape of a rule graph
- `Snapshot.Keeps` — a rule has its formula and exactly its paths

## Main results

- `Proper.wellFormed_ruleGraph` — a graph of proper rules is well-formed
- `Proper.keeps_ruleGraph`, `Proper.exists_keeps` — its rules are those that were added, with their
  formulas and their paths
-/

namespace RulePaths

namespace Snapshot

/-- An edge leads from the path to the rule. -/
def Linked (g : Snapshot) (path rule : NodeRecord) : Prop :=
  ∃ e ∈ g.edgesOf .hasRule, e.source = path.id ∧ e.target = rule.id

/-- The shape of a rule graph. -/
structure WellFormed (g : Snapshot) : Prop where
  /-- Numbers tell nodes apart, and so do kinds and keys. -/
  sound : g.Sound
  inPathEnds : ∀ e ∈ g.edgesOf .inPath,
    (∃ a ∈ g.nodesOf .attr, a.id = e.source) ∧ ∃ p ∈ g.nodesOf .path, p.id = e.target
  hasRuleEnds : ∀ e ∈ g.edgesOf .hasRule,
    (∃ p ∈ g.nodesOf .path, p.id = e.source) ∧ ∃ r ∈ g.nodesOf .rule, r.id = e.target
  /-- The one edge into a path comes from the first of its attributes. -/
  lead : ∀ p ∈ g.nodesOf .path, ∃ e, g.edgesInto .inPath p.id = [e] ∧
    e.properties.get? pathProperty = some p.key ∧
      ∃ a ∈ g.nodesOf .attr, a.id = e.source ∧ (Path.attributeTokens p.key).head? = some a.key
  tokens : ∀ p ∈ g.nodesOf .path, ∀ token ∈ Path.attributeTokens p.key,
    ∃ a ∈ g.nodesOf .attr, a.key = token
  attributes : ∀ a ∈ g.nodesOf .attr, ∃ p ∈ g.nodesOf .path, a.key ∈ Path.attributeTokens p.key
  linked : ∀ p ∈ g.nodesOf .path, ∃ e ∈ g.edgesOf .hasRule, e.source = p.id
  single : ((g.edgesOf .hasRule).map fun e => (e.source, e.target)).Nodup

/-- A rule has its formula, no other property, and exactly these paths. -/
structure Keeps (g : Snapshot) (r : NodeRecord) (formula : String) (paths : List String) :
    Prop where
  properties : r.properties = Table.empty.insert formulaProperty formula
  paths : ∀ path, path ∈ paths ↔ ∃ p ∈ g.nodesOf .path, p.key = path ∧ g.Linked p r

variable {g : Snapshot} {rules : List (String × String)} {paths : List String}
  {links : List (String × String)}

/-! ### Nodes and edges by names -/

theorem target_of_leadLink? {path : String} {l : Link} (h : leadLink? path = some l) :
    l.target = some (.path, path) := by
  obtain ⟨lead, _, rfl⟩ := Option.map_eq_some_iff.1 h
  rfl

/-- The edge into a path is the one that was made for it. -/
theorem filter_leadLinks (ps : List String) (path : String) :
    (ps.filterMap leadLink?).filter (fun l => l.target == some (.path, path)) =
      (ps.filter (· == path)).filterMap leadLink? := by
  rw [List.filter_filterMap, List.filterMap_filter]
  congr 1
  funext p
  cases hp : leadLink? p with
  | none => simp
  | some l => simp [Option.filter, target_of_leadLink? hp]

theorem filter_beq_eraseDups {ps : List String} {path : String} (h : path ∈ ps) :
    ps.eraseDups.filter (· == path) = [path] := by
  rw [List.filter_beq, List.count_eq_one_of_mem (nodup_eraseDups ps) (List.mem_eraseDups.2 h)]
  rfl

namespace Content

theorem mem_path_iff (h : Content g rules paths links) {path : String} :
    path ∈ paths ↔ ∃ p ∈ g.nodesOf .path, p.key = path := by
  rw [← List.mem_eraseDups, ← h.pathKeys, keys, List.mem_map]

theorem mem_attribute_iff (h : Content g rules paths links) {token : String} :
    (∃ path ∈ paths, token ∈ Path.attributeTokens path) ↔ ∃ a ∈ g.nodesOf .attr, a.key = token := by
  rw [← List.mem_flatMap, ← List.mem_eraseDups, ← h.attributeKeys, keys, List.mem_map]

/-- An edge into a path, by names. -/
theorem leadLink?_of_mem_edgesOf (h : Content g rules paths links) {e : EdgeRecord}
    (he : e ∈ g.edgesOf .inPath) : ∃ path ∈ paths, leadLink? path = some (g.linkOf e) := by
  have hlink : g.linkOf e ∈ g.links .inPath := List.mem_map_of_mem he
  rw [h.inPathLinks, List.mem_filterMap] at hlink
  obtain ⟨path, hpath, hlink⟩ := hlink
  exact ⟨path, List.mem_eraseDups.1 hpath, hlink⟩

/-- An edge to a rule, by names. -/
theorem ruleLink_of_mem_edgesOf (h : Content g rules paths links) {e : EdgeRecord}
    (he : e ∈ g.edgesOf .hasRule) : ∃ l ∈ links, ruleLink l.1 l.2 = g.linkOf e := by
  have hlink : g.linkOf e ∈ g.links .hasRule := List.mem_map_of_mem he
  rwa [h.hasRuleLinks, List.mem_map] at hlink

theorem exists_edge_of_mem_links (h : Content g rules paths links) {l : String × String}
    (hl : l ∈ links) : ∃ e ∈ g.edgesOf .hasRule, g.linkOf e = ruleLink l.1 l.2 := by
  have hlink : ruleLink l.1 l.2 ∈ g.links .hasRule := by
    rw [h.hasRuleLinks]
    exact List.mem_map_of_mem hl
  exact List.mem_map.1 hlink

/-- The one edge into a path. -/
theorem edgesInto_path (h : Content g rules paths links) {p : NodeRecord}
    (hp : p ∈ g.nodesOf .path) {l : Link} (hl : leadLink? p.key = some l) :
    ∃ e, g.edgesInto .inPath p.id = [e] ∧ g.linkOf e = l := by
  have hmem : p.key ∈ paths := h.mem_path_iff.2 ⟨p, hp, rfl⟩
  apply List.map_eq_singleton_iff.1
  rw [h.sound.map_linkOf_edgesInto (mem_nodesOf.1 hp).1, h.inPathLinks, name_of_mem_nodesOf hp,
    filter_leadLinks, filter_beq_eraseDups hmem]
  simp [hl]

theorem linked_iff (h : Content g rules paths links) {p r : NodeRecord}
    (hp : p ∈ g.nodesOf .path) (hr : r ∈ g.nodesOf .rule) :
    g.Linked p r ↔ (p.key, r.key) ∈ links := by
  have hpath := name_of_mem_nodesOf hp
  have hrule := name_of_mem_nodesOf hr
  constructor
  · rintro ⟨e, he, hsource, htarget⟩
    obtain ⟨l, hl, hlink⟩ := h.ruleLink_of_mem_edgesOf he
    rw [linkOf, hsource, htarget, h.sound.nameOf_id (mem_nodesOf.1 hp).1,
      h.sound.nameOf_id (mem_nodesOf.1 hr).1, hpath, hrule] at hlink
    simp only [ruleLink, Link.mk.injEq, Option.some.injEq, Prod.mk.injEq, true_and] at hlink
    rwa [← hlink.1, ← hlink.2.1]
  · intro hl
    obtain ⟨e, he, hlink⟩ := h.exists_edge_of_mem_links hl
    simp only [linkOf, ruleLink, Link.mk.injEq] at hlink
    refine ⟨e, he, ?_, ?_⟩
    · rw [← h.sound.nameOf_eq_iff (mem_nodesOf.1 hp).1, hpath, hlink.1]
    · rw [← h.sound.nameOf_eq_iff (mem_nodesOf.1 hr).1, hrule, hlink.2.1]

theorem nodup_hasRuleEnds (h : Content g rules paths links) (hlinks : links.Nodup) :
    ((g.edgesOf .hasRule).map fun e => (e.source, e.target)).Nodup := by
  -- the ends by name are made of the ends by number, so repeats would show
  have hends : (g.links .hasRule).map (fun l => (l.source, l.target)) =
      ((g.edgesOf .hasRule).map fun e => (e.source, e.target)).map
        fun ends => (g.nameOf ends.1, g.nameOf ends.2) := by
    simp [Snapshot.links, linkOf]
  have hnodup : ((g.links .hasRule).map fun l => (l.source, l.target)).Nodup := by
    rw [h.hasRuleLinks, List.map_map]
    refine hlinks.map fun k l hkl => ?_
    simp only [Function.comp, ruleLink, Prod.mk.injEq, Option.some.injEq, true_and] at hkl
    exact Prod.ext hkl.1 hkl.2
  rw [hends] at hnodup
  exact .of_map _ hnodup

end Content

end Snapshot

/-! ### Proper rules -/

open Snapshot

/-- Rules with different ids whose formulas have paths. -/
structure Proper (rules : List RuleDefinition) : Prop where
  distinct : (rules.map RuleDefinition.id).Nodup
  terms : ∀ r ∈ rules, Minimizer.Terms r.formula (Minimizer.termsOf r.formula)

namespace Proper

variable {rules : List RuleDefinition} (h : Proper rules)
include h

theorem eq_of_id_eq {r s : RuleDefinition} (hr : r ∈ rules) (hs : s ∈ rules) (heq : r.id = s.id) :
    r = s :=
  List.inj_on_of_nodup_map h.distinct hr hs heq

theorem mem_links_iff {r : RuleDefinition} (hr : r ∈ rules) {path : String} :
    (path, r.id) ∈ rules.flatMap (fun r => (Minimizer.pathsOf r.formula).map fun p => (p, r.id)) ↔
      path ∈ Minimizer.pathsOf r.formula := by
  simp only [List.mem_flatMap, List.mem_map, Prod.mk.injEq]
  constructor
  · rintro ⟨s, hs, p, hp, rfl, hid⟩
    exact h.eq_of_id_eq hs hr hid ▸ hp
  · exact fun hpath => ⟨r, hr, path, hpath, rfl, rfl⟩

theorem nodup_links :
    (rules.flatMap fun r => (Minimizer.pathsOf r.formula).map fun p => (p, r.id)).Nodup := by
  refine List.nodup_flatMap.2 ⟨fun r hr => ?_, ?_⟩
  · exact (h.terms r hr).nodup_paths.map fun p q hpq => (Prod.mk.inj hpq).1
  · refine (List.pairwise_map.1 h.distinct).imp fun hne l hr hs => hne ?_
    obtain ⟨p, _, rfl⟩ := List.mem_map.1 hr
    obtain ⟨q, _, heq⟩ := List.mem_map.1 hs
    exact (Prod.mk.inj heq).2.symm

/-- Every path of a rule names an attribute. -/
theorem exists_lead {path : String}
    (hpath : path ∈ rules.flatMap fun r => Minimizer.pathsOf r.formula) :
    ∃ lead, (Path.attributeTokens path).head? = some lead := by
  obtain ⟨r, hr, hpath⟩ := List.mem_flatMap.1 hpath
  obtain ⟨t, ht, rfl⟩ := List.mem_map.1 hpath
  rw [Path.attributeTokens_render ((h.terms r hr).ascending t ht), List.head?_map]
  cases t with
  | nil => exact absurd rfl ((h.terms r hr).ne_nil [] ht)
  | cons l ls => exact ⟨_, rfl⟩

theorem wellFormed_ruleGraph : (ruleGraph rules).WellFormed := by
  have hcontent := content_ruleGraph h.distinct
  have hsound := hcontent.sound
  exact {
    sound := hsound
    inPathEnds := by
      intro e he
      obtain ⟨path, _, hlink⟩ := hcontent.leadLink?_of_mem_edgesOf he
      obtain ⟨lead, _, hlink⟩ := Option.map_eq_some_iff.1 hlink
      simp only [linkOf, Link.mk.injEq] at hlink
      obtain ⟨a, ha, hid, _⟩ := hsound.exists_of_nameOf hlink.1.symm
      obtain ⟨p, hp, hid', _⟩ := hsound.exists_of_nameOf hlink.2.1.symm
      exact ⟨⟨a, ha, hid⟩, p, hp, hid'⟩
    hasRuleEnds := by
      intro e he
      obtain ⟨l, _, hlink⟩ := hcontent.ruleLink_of_mem_edgesOf he
      simp only [linkOf, ruleLink, Link.mk.injEq] at hlink
      obtain ⟨p, hp, hid, _⟩ := hsound.exists_of_nameOf hlink.1.symm
      obtain ⟨r, hr, hid', _⟩ := hsound.exists_of_nameOf hlink.2.1.symm
      exact ⟨⟨p, hp, hid⟩, r, hr, hid'⟩
    lead := by
      intro p hp
      obtain ⟨lead, hlead⟩ := h.exists_lead (hcontent.mem_path_iff.2 ⟨p, hp, rfl⟩)
      obtain ⟨e, hedges, hlink⟩ := hcontent.edgesInto_path hp (by rw [leadLink?, hlead]; rfl)
      simp only [linkOf, Link.mk.injEq] at hlink
      obtain ⟨a, ha, hid, hkey⟩ := hsound.exists_of_nameOf hlink.1
      refine ⟨e, hedges, ?_, a, ha, hid, hkey ▸ hlead⟩
      rw [hlink.2.2, Table.get?_insert_self]
    tokens := fun p hp token htoken =>
      hcontent.mem_attribute_iff.1 ⟨p.key, hcontent.mem_path_iff.2 ⟨p, hp, rfl⟩, htoken⟩
    attributes := by
      intro a ha
      obtain ⟨path, hpath, htoken⟩ := hcontent.mem_attribute_iff.2 ⟨a, ha, rfl⟩
      obtain ⟨p, hp, rfl⟩ := hcontent.mem_path_iff.1 hpath
      exact ⟨p, hp, htoken⟩
    linked := by
      intro p hp
      obtain ⟨r, hr, hpath⟩ := List.mem_flatMap.1 (hcontent.mem_path_iff.2 ⟨p, hp, rfl⟩)
      obtain ⟨e, he, hlink⟩ := hcontent.exists_edge_of_mem_links ((h.mem_links_iff hr).2 hpath)
      simp only [linkOf, ruleLink, Link.mk.injEq] at hlink
      refine ⟨e, he, ?_⟩
      rw [← hsound.nameOf_eq_iff (mem_nodesOf.1 hp).1, name_of_mem_nodesOf hp, hlink.1]
    single := hcontent.nodup_hasRuleEnds h.nodup_links }

theorem keeps_ruleGraph {n : NodeRecord} (hn : n ∈ (ruleGraph rules).nodesOf .rule) :
    ∃ r ∈ rules, r.id = n.key ∧
      (ruleGraph rules).Keeps n r.formula (Minimizer.pathsOf r.formula) := by
  have hcontent := content_ruleGraph h.distinct
  have hmem : (n.key, n.properties) ∈ rules.map fun r => (r.id, ruleProperties r.formula) := by
    have hnode := List.mem_map_of_mem (f := fun n : NodeRecord => (n.key, n.properties)) hn
    rwa [hcontent.ruleNodes, List.map_map] at hnode
  obtain ⟨r, hr, heq⟩ := List.mem_map.1 hmem
  obtain ⟨hid, hproperties⟩ := Prod.mk.inj heq
  refine ⟨r, hr, hid, hproperties.symm, fun path => ?_⟩
  -- ids are different, so what is linked to this id belongs to this rule
  rw [← h.mem_links_iff hr, hid]
  constructor
  · intro hlink
    have hpath : path ∈ rules.flatMap fun r => Minimizer.pathsOf r.formula :=
      List.mem_flatMap.2 ⟨r, hr, (h.mem_links_iff hr).1 (hid ▸ hlink)⟩
    obtain ⟨p, hp, rfl⟩ := hcontent.mem_path_iff.1 hpath
    exact ⟨p, hp, rfl, (hcontent.linked_iff hp hn).2 hlink⟩
  · rintro ⟨p, hp, rfl, hlinked⟩
    exact (hcontent.linked_iff hp hn).1 hlinked

/-- Every rule that was added is there. -/
theorem exists_keeps {r : RuleDefinition} (hr : r ∈ rules) :
    ∃ n ∈ (ruleGraph rules).nodesOf .rule, n.key = r.id ∧
      (ruleGraph rules).Keeps n r.formula (Minimizer.pathsOf r.formula) := by
  have hmem : (r.id, ruleProperties r.formula) ∈
      ((ruleGraph rules).nodesOf .rule).map fun n => (n.key, n.properties) := by
    rw [(content_ruleGraph h.distinct).ruleNodes, List.map_map]
    exact List.mem_map_of_mem (f := fun r : RuleDefinition => (r.id, ruleProperties r.formula)) hr
  obtain ⟨n, hn, heq⟩ := List.mem_map.1 hmem
  have hid : n.key = r.id := (Prod.mk.inj heq).1
  obtain ⟨s, hs, hsid, hkeeps⟩ := h.keeps_ruleGraph hn
  obtain rfl := h.eq_of_id_eq hs hr (hsid.trans hid)
  exact ⟨n, hn, hid, hkeeps⟩

end Proper

end RulePaths
