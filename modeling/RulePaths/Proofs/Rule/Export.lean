import RulePaths.Graph.Export
import RulePaths.Proofs.Rule.WellFormed

/-!
# The export of a rule graph

What is exported from a graph of proper rules can be told from the rules alone, without the graph.
It does not depend on the order in which they were added.

## Main definitions

- `exportOf` — the export of some rules, said without a graph

## Main results

- `Proper.toExport_ruleGraph` — the export of a graph of rules is that of the rules
- `exportOf_perm` — the order of the rules does not matter
- `Snapshot.Sound.ruleEntry_iff` — the rules that are found are the entries of the export
-/

namespace RulePaths

/-- The attributes of a path, in the order in which it mentions them. -/
def Path.attributes (path : String) : List Nat :=
  (literals path).map Literal.index

/-- The entry of a rule, with its paths in ascending order. -/
def RuleDefinition.entry (r : RuleDefinition) : RuleEntry :=
  ⟨r.id, r.formula, sortTexts (Minimizer.pathsOf r.formula)⟩

/-- The entry of a path of some rules. Its lowest attribute leads it. -/
def pathEntryOf (rules : List RuleDefinition) (path : String) : PathEntry where
  id := path
  lead := (Path.attributes path).min?.map Nat.repr
  rules := sortTexts
    ((rules.filter fun r => path ∈ Minimizer.pathsOf r.formula).map RuleDefinition.id)

/-- The export of some rules: the rules, their distinct paths and the distinct attributes of
these, each in ascending order. -/
def exportOf (rules : List RuleDefinition) : GraphExport :=
  let paths := rules.flatMap fun r => Minimizer.pathsOf r.formula
  { rules := (rules.map RuleDefinition.entry).mergeSort fun a b => (compare a.id b.id).isLE
    paths := (sortTexts paths.eraseDups).map (pathEntryOf rules)
    attributes := sortTexts
      (paths.flatMap fun path => (Path.attributes path).map Nat.repr).eraseDups }

/-! ### The order of the rules -/

theorem sortTexts_eraseDups {as bs : List String} (h : as.Perm bs) :
    sortTexts as.eraseDups = sortTexts bs.eraseDups := by
  refine ascending_eq_of_perm ?_
  rw [List.perm_ext_iff_of_nodup (nodup_eraseDups as) (nodup_eraseDups bs)]
  intro a
  rw [List.mem_eraseDups, List.mem_eraseDups, h.mem_iff]

/-- The export does not tell in which order the rules were created. -/
theorem exportOf_perm {rules rules' : List RuleDefinition} (h : rules.Perm rules')
    (hdistinct : (rules.map RuleDefinition.id).Nodup) : exportOf rules = exportOf rules' := by
  have hrules : ∀ a ∈ rules.map RuleDefinition.entry, ∀ b ∈ rules.map RuleDefinition.entry,
      a.id = b.id → a = b := by
    intro a ha b hb hid
    obtain ⟨r, hr, rfl⟩ := List.mem_map.1 ha
    obtain ⟨s, hs, rfl⟩ := List.mem_map.1 hb
    rw [List.inj_on_of_nodup_map hdistinct hr hs hid]
  have hpaths := h.flatMap_right fun r => Minimizer.pathsOf r.formula
  have hentries : pathEntryOf rules = pathEntryOf rules' := by
    funext path
    rw [pathEntryOf, pathEntryOf]
    congr 1
    exact ascending_eq_of_perm ((h.filter _).map _)
  simp only [exportOf, hentries, mergeSort_eq_of_perm (h.map _) hrules, sortTexts_eraseDups hpaths,
    sortTexts_eraseDups (hpaths.flatMap_right _)]

/-! ### Entries by names -/

namespace Snapshot

variable {g : Snapshot} {rules : List (String × String)} {paths : List String}
  {links : List (String × String)}

theorem Sound.keyOf? (hg : g.Sound) (i : Nat) : g.keyOf? i = (g.nameOf i).map Prod.snd := by
  rw [Snapshot.keyOf?, hg.nodeById?, nameOf, Option.map_map]
  rfl

theorem name_beq (kind : NodeKind) (a b : String) : ((kind, a) == (kind, b)) = (a == b) := by
  rw [Bool.eq_iff_iff]
  simp

namespace Content

theorem ruleEntry (h : Content g rules paths links) {n : NodeRecord} (hn : n ∈ g.nodesOf .rule) :
    g.ruleEntry n = ⟨n.key, (n.properties.get? formulaProperty).getD "",
      sortTexts ((links.filter fun l => l.2 == n.key).map Prod.fst)⟩ := by
  have hsources : (g.edgesInto .hasRule n.id).filterMap (fun e => g.keyOf? e.source) =
      ((g.edgesInto .hasRule n.id).map g.linkOf).filterMap fun l => l.source.map Prod.snd := by
    rw [List.filterMap_map]
    exact List.filterMap_congr fun e _ => h.sound.keyOf? e.source
  rw [Snapshot.ruleEntry, hsources, h.sound.map_linkOf_edgesInto (mem_nodesOf.1 hn).1,
    h.hasRuleLinks, List.filter_map, List.filterMap_map, name_of_mem_nodesOf hn]
  congr 2
  simp [Function.comp_def, ruleLink, name_beq]

theorem pathEntry (h : Content g rules paths links) {p : NodeRecord} (hp : p ∈ g.nodesOf .path)
    {lead : String} (hlead : (Path.attributeTokens p.key).head? = some lead) :
    g.pathEntry p = ⟨p.key, some lead,
      sortTexts ((links.filter fun l => l.1 == p.key).map Prod.snd)⟩ := by
  have htargets : (g.edgesOutOf .hasRule p.id).filterMap (fun e => g.keyOf? e.target) =
      ((g.edgesOutOf .hasRule p.id).map g.linkOf).filterMap fun l => l.target.map Prod.snd := by
    rw [List.filterMap_map]
    exact List.filterMap_congr fun e _ => h.sound.keyOf? e.target
  obtain ⟨e, hedges, hlink⟩ := h.edgesInto_path hp (by rw [leadLink?, hlead]; rfl)
  simp only [linkOf, Link.mk.injEq] at hlink
  rw [Snapshot.pathEntry, htargets, h.sound.map_linkOf_edgesOutOf (mem_nodesOf.1 hp).1,
    h.hasRuleLinks, List.filter_map, List.filterMap_map, name_of_mem_nodesOf hp, hedges]
  congr 2
  · simp [h.sound.keyOf?, hlink.1]
  · simp [Function.comp_def, ruleLink, name_beq]

end Content

/-- The rules that are found by id are the entries of the export. -/
theorem Sound.ruleEntry_iff (hg : g.Sound) {id : String} {r : RuleEntry} :
    (g.node? .rule id).map g.ruleEntry = some r ↔ r ∈ g.toExport.rules ∧ r.id = id := by
  rw [toExport, List.mem_mergeSort, List.mem_map, Option.map_eq_some_iff]
  constructor
  · rintro ⟨n, hn, rfl⟩
    obtain ⟨hkind, hkey⟩ := Prod.mk.inj (name_of_node? hn)
    exact ⟨⟨n, mem_nodesOf.2 ⟨mem_of_node? hn, hkind⟩, rfl⟩, hkey⟩
  · rintro ⟨⟨n, hn, rfl⟩, rfl⟩
    exact ⟨n, hg.node?_eq_some_iff.2 ⟨(mem_nodesOf.1 hn).1, name_of_mem_nodesOf hn⟩, rfl⟩

end Snapshot

/-! ### The export of proper rules -/

open Snapshot

namespace Proper

variable {rules : List RuleDefinition} (h : Proper rules)
include h

/-- The tokens of a path are the texts of its attributes, which ascend. -/
theorem attributes_of_mem {path : String}
    (hpath : path ∈ rules.flatMap fun r => Minimizer.pathsOf r.formula) :
    Path.attributeTokens path = (Path.attributes path).map Nat.repr ∧
      (Path.attributes path).Pairwise (· < ·) := by
  obtain ⟨r, hr, hpath⟩ := List.mem_flatMap.1 hpath
  obtain ⟨t, ht, rfl⟩ := List.mem_map.1 hpath
  have hascending := (h.terms r hr).ascending t ht
  rw [Path.attributeTokens_render hascending, Path.attributes, Path.literals_render, List.map_map]
  exact ⟨rfl, List.pairwise_map.2 hascending⟩

theorem filter_id {r : RuleDefinition} (hr : r ∈ rules) :
    rules.filter (fun s => s.id == r.id) = [r] := by
  have hfilter : rules.filter (fun s => s.id == r.id) = rules.filter (· == r) := by
    refine List.filter_congr fun s hs => ?_
    rw [Bool.eq_iff_iff, beq_iff_eq, beq_iff_eq]
    exact ⟨h.eq_of_id_eq hs hr, fun heq => heq ▸ rfl⟩
  rw [hfilter, List.filter_beq, List.count_eq_one_of_mem (.of_map _ h.distinct) hr]
  rfl

/-- The paths linked to a rule are its own. -/
theorem paths_of_links {r : RuleDefinition} (hr : r ∈ rules) :
    ((rules.flatMap fun r => (Minimizer.pathsOf r.formula).map fun p => (p, r.id)).filter
      fun l => l.2 == r.id).map Prod.fst = Minimizer.pathsOf r.formula := by
  have hlinks : ∀ rs : List RuleDefinition,
      ((rs.flatMap fun r => (Minimizer.pathsOf r.formula).map fun p => (p, r.id)).filter
        fun l => l.2 == r.id).map Prod.fst =
          (rs.filter fun s => s.id == r.id).flatMap fun s => Minimizer.pathsOf s.formula := by
    intro rs
    induction rs with
    | nil => rfl
    | cons s rs ih =>
      rw [List.flatMap_cons, List.filter_append, List.map_append, ih, List.filter_cons]
      by_cases hs : s.id = r.id <;> simp [hs, List.filter_map, Function.comp_def]
  rw [hlinks rules, h.filter_id hr, List.flatMap_singleton]

/-- The rules that a path is linked to are those that have it. -/
theorem rules_of_links (path : String) :
    ((rules.flatMap fun r => (Minimizer.pathsOf r.formula).map fun p => (p, r.id)).filter
      fun l => l.1 == path).map Prod.snd =
        (rules.filter fun r => path ∈ Minimizer.pathsOf r.formula).map RuleDefinition.id := by
  have hnodup := fun r hr => (h.terms r hr).nodup_paths
  clear h
  induction rules with
  | nil => rfl
  | cons r rules ih =>
    have hpath : ((Minimizer.pathsOf r.formula).filter (· == path)).map (fun _ => r.id) =
        if path ∈ Minimizer.pathsOf r.formula then [r.id] else [] := by
      rw [List.filter_beq, List.map_replicate]
      split
      · next hmem => rw [List.count_eq_one_of_mem (hnodup r List.mem_cons_self) hmem]; rfl
      · next hmem => rw [List.count_eq_zero_of_not_mem hmem]; rfl
    rw [List.flatMap_cons, List.filter_append, List.map_append,
      ih fun s hs => hnodup s (List.mem_cons_of_mem r hs), List.filter_map, List.map_map,
      List.filter_cons]
    show ((Minimizer.pathsOf r.formula).filter (· == path)).map (fun _ => r.id) ++ _ = _
    rw [hpath]
    by_cases hmem : path ∈ Minimizer.pathsOf r.formula <;> simp [hmem]

theorem map_ruleEntry : ((ruleGraph rules).nodesOf .rule).map (ruleGraph rules).ruleEntry =
    rules.map RuleDefinition.entry := by
  have hcontent := content_ruleGraph h.distinct
  let links := rules.flatMap fun r => (Minimizer.pathsOf r.formula).map fun p => (p, r.id)
  let entry := fun n : String × Properties => (⟨n.1, (n.2.get? formulaProperty).getD "",
    sortTexts ((links.filter fun l => l.2 == n.1).map Prod.fst)⟩ : RuleEntry)
  -- an entry depends on the key and the properties of its node only
  have hentries : ((ruleGraph rules).nodesOf .rule).map (ruleGraph rules).ruleEntry =
      (((ruleGraph rules).nodesOf .rule).map fun n => (n.key, n.properties)).map entry := by
    rw [List.map_map]
    exact List.map_congr_left fun n hn => hcontent.ruleEntry hn
  rw [hentries, hcontent.ruleNodes, List.map_map, List.map_map]
  refine List.map_congr_left fun r hr => ?_
  simp only [Function.comp, entry, links, h.paths_of_links hr, ruleProperties,
    Table.get?_insert_self, Option.getD_some, RuleDefinition.entry]

theorem toExport_ruleGraph : (ruleGraph rules).toExport = exportOf rules := by
  have hcontent := content_ruleGraph h.distinct
  have hpaths : ((ruleGraph rules).nodesOf .path).map (ruleGraph rules).pathEntry =
      ((rules.flatMap fun r => Minimizer.pathsOf r.formula).eraseDups).map (pathEntryOf rules) := by
    rw [← hcontent.pathKeys, keys, List.map_map]
    refine List.map_congr_left fun p hp => ?_
    have hmem := hcontent.mem_path_iff.2 ⟨p, hp, rfl⟩
    obtain ⟨lead, hlead⟩ := h.exists_lead hmem
    obtain ⟨htokens, hascending⟩ := h.attributes_of_mem hmem
    have hlowest : (Path.attributes p.key).min? = (Path.attributes p.key).head? :=
      List.min?_eq_head? (hascending.imp fun hlt => Nat.min_eq_left (Nat.le_of_lt hlt))
    rw [hcontent.pathEntry hp hlead, ← hlead, htokens, List.head?_map, h.rules_of_links,
      Function.comp, pathEntryOf, hlowest]
  have htokens : (rules.flatMap fun r => Minimizer.pathsOf r.formula).flatMap Path.attributeTokens =
      (rules.flatMap fun r => Minimizer.pathsOf r.formula).flatMap fun path =>
        (Path.attributes path).map Nat.repr :=
    List.flatMap_congr fun path hpath => (h.attributes_of_mem hpath).1
  rw [toExport, h.map_ruleEntry, hpaths, ← keys, hcontent.attributeKeys, htokens, exportOf]
  congr 1
  -- entries are sorted by the paths they are made of
  refine (List.map_mergeSort ?_).symm
  intros
  rfl

end Proper

example : exportOf [⟨"b", "1|0&2"⟩, ⟨"a", "1"⟩] =
    ⟨[⟨"a", "1", ["1"]⟩, ⟨"b", "1|0&2", ["0&2", "1"]⟩],
      [⟨"0&2", some "0", ["b"]⟩, ⟨"1", some "1", ["a", "b"]⟩], ["0", "1", "2"]⟩ := by
  cbv

end RulePaths
