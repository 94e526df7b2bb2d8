import RulePaths.Proofs.Formula.Paths
import RulePaths.Proofs.Graph.Links
import RulePaths.Proofs.Rule.RuleGraph
import RulePaths.Rule.RuleDefinition
import Mathlib.Data.List.Induction

/-!
# What a rule graph holds

A graph that rules were added to is described without numbers: by the rules, and by the links of
paths to rules, both in the order in which they came. All else follows. There is a node for every
path that was linked and for every attribute of such a path, and one edge into every path.

## Main definitions

- `Snapshot.Content` — the graph holds certain rules and links
- `ruleGraph` — the graph of some rules

## Main results

- `Snapshot.Content.linkPath` — what one more link does
- `content_ruleGraph` — what a graph of rules holds
-/

namespace RulePaths

/-! ### Lists without repeats -/

theorem eraseDups_concat {α : Type} [BEq α] [LawfulBEq α] (l : List α) (a : α) :
    (l ++ [a]).eraseDups = if a ∈ l then l.eraseDups else l.eraseDups ++ [a] := by
  rw [List.eraseDups_append]
  by_cases h : a ∈ l
  · simp [List.removeAll, h]
  · simp [List.removeAll, h, List.eraseDups_cons]

theorem eraseDups_append_of_subset {α : Type} [BEq α] [LawfulBEq α] {l m : List α} (h : m ⊆ l) :
    (l ++ m).eraseDups = l.eraseDups := by
  have hnone : m.removeAll l = [] := by
    rw [List.removeAll, List.filter_eq_nil_iff]
    intro a ha
    simpa using h ha
  rw [List.eraseDups_append, hnone]
  simp

theorem nodup_eraseDups {α : Type} [BEq α] [LawfulBEq α] (l : List α) : l.eraseDups.Nodup := by
  induction l using List.reverseRecOn with
  | nil => simp
  | append_singleton l a ih =>
    rw [eraseDups_concat]
    split
    · exact ih
    · next h => exact ih.append (List.nodup_singleton a) (by simpa using h)

namespace Snapshot

variable {g h : Snapshot} {kind kind' : NodeKind} {key : String} {node : NodeRef}
  {l : List String}

/-! ### Nodes that are added unless they are there -/

theorem keys_ensure (hkeys : g.keys kind = l.eraseDups) (key : String) :
    (g.ensure kind key).keys kind = (l ++ [key]).eraseDups := by
  have hmem : key ∈ g.keys kind ↔ key ∈ l := by rw [hkeys, List.mem_eraseDups]
  rw [eraseDups_concat, ← hkeys]
  obtain ⟨n, hn, heq, _⟩ | ⟨hnew, heq, _⟩ := ensure_cases g kind key
  · have hold : key ∈ l := hmem.1 (by
      by_contra hnot
      cases hn.symm.trans (node?_eq_none_iff_keys.2 hnot))
    rw [heq, if_pos hold]
  · have hnot : key ∉ l := fun hl => node?_eq_none_iff_keys.1 hnew (hmem.2 hl)
    rw [heq, if_neg hnot, keys, nodesOf_addNode, List.map_append, keys]
    rfl

theorem nodesOf_ensure_of_ne (g : Snapshot) (h : kind ≠ kind') (key : String) :
    (g.ensure kind key).nodesOf kind' = g.nodesOf kind' := by
  obtain ⟨_, _, heq, _⟩ | ⟨_, heq, _⟩ := ensure_cases g kind key
  · rw [heq]
  · rw [heq, nodesOf_addNode_of_ne g h]

theorem links_ensure (hg : g.Sound) (kind : NodeKind) (key : String) (kind' : EdgeKind) :
    (g.ensure kind key).links kind' = g.links kind' := by
  obtain ⟨_, _, heq, _⟩ | ⟨_, heq, _⟩ := ensure_cases g kind key
  · rw [heq]
  · rw [heq, links_addNode hg]

theorem keys_ensureAll (hkeys : g.keys kind = l.eraseDups) (tokens : List String) :
    (tokens.foldl (ensure kind) g).keys kind = (l ++ tokens).eraseDups := by
  induction tokens generalizing g l with
  | nil => simpa using hkeys
  | cons token tokens ih =>
    rw [List.foldl_cons, ih (keys_ensure hkeys token), List.append_assoc, List.singleton_append]

theorem nodesOf_ensureAll_of_ne (g : Snapshot) (h : kind ≠ kind') (tokens : List String) :
    (tokens.foldl (ensure kind) g).nodesOf kind' = g.nodesOf kind' := by
  induction tokens generalizing g with
  | nil => rfl
  | cons token tokens ih => rw [List.foldl_cons, ih, nodesOf_ensure_of_ne g h]

theorem links_ensureAll (hg : g.Sound) (kind : NodeKind) (tokens : List String)
    (kind' : EdgeKind) : (tokens.foldl (ensure kind) g).links kind' = g.links kind' := by
  induction tokens generalizing g with
  | nil => rfl
  | cons token tokens ih => rw [List.foldl_cons, ih (hg.ensure kind token), links_ensure hg]

/-! ### Rules and links -/

/-- The edge into a path, from the attribute that leads it. -/
def leadLink? (path : String) : Option Link :=
  (Path.attributeTokens path).head?.map fun lead =>
    ⟨some (.attr, lead), some (.path, path), Table.empty.insert pathProperty path⟩

/-- The edge from a path to a rule. -/
def ruleLink (path rule : String) : Link :=
  ⟨some (.path, path), some (.rule, rule), .empty⟩

theorem nodesOf_completePath (g : Snapshot) (path : String) (node : Nat) (kind : NodeKind) :
    (g.completePath path node).nodesOf kind =
      ((Path.attributeTokens path).foldl (ensure .attr) g).nodesOf kind := by
  obtain ⟨_, _, heq⟩ | ⟨_, heq⟩ := completePath_cases g path node
  · rw [heq]
    rfl
  · rw [heq]

/-- Completing a path adds the edge into it, if it names an attribute. -/
theorem links_completePath (hg : g.Sound) {path : String} {i : Nat} (hi : g.Has ⟨i, .path, path⟩)
    (kind : EdgeKind) : (g.completePath path i).links kind =
      g.links kind ++ if .inPath = kind then (leadLink? path).toList else [] := by
  obtain ⟨lead, hlead, heq⟩ | ⟨hlead, heq⟩ := completePath_cases g path i
  · have hattr := hg.has_lead hlead .attr
    have hpath := hi.ensureAll (Path.attributeTokens path) .attr
    rw [heq, links_addEdge, links_ensureAll hg, hattr.nameOf, hpath.nameOf, leadLink?, hlead]
    rfl
  · rw [heq, links_ensureAll hg, leadLink?, hlead]
    simp

/-- The graph holds rules, given by id and formula, paths in the order in which they were asked
for, and links, given by path and rule. -/
structure Content (g : Snapshot) (rules : List (String × String)) (paths : List String)
    (links : List (String × String)) : Prop where
  sound : g.Sound
  ruleNodes : (g.nodesOf .rule).map (fun n => (n.key, n.properties)) =
    rules.map fun r => (r.1, ruleProperties r.2)
  pathKeys : g.keys .path = paths.eraseDups
  attributeKeys : g.keys .attr = (paths.flatMap Path.attributeTokens).eraseDups
  inPathLinks : g.links .inPath = paths.eraseDups.filterMap leadLink?
  hasRuleLinks : g.links .hasRule = links.map fun l => ruleLink l.1 l.2

theorem content_empty : Content empty [] [] [] where
  sound := sound_empty
  ruleNodes := rfl
  pathKeys := rfl
  attributeKeys := rfl
  inPathLinks := rfl
  hasRuleLinks := rfl

namespace Content

variable {rules : List (String × String)} {paths : List String} {links : List (String × String)}

theorem node?_path_eq_none_iff (h : Content g rules paths links) {path : String} :
    g.node? .path path = none ↔ path ∉ paths := by
  rw [node?_eq_none_iff_keys, h.pathKeys, List.mem_eraseDups]

theorem node?_rule_eq_none_iff (h : Content g rules paths links) {id : String} :
    g.node? .rule id = none ↔ id ∉ rules.map Prod.fst := by
  have hkeys : g.keys .rule = rules.map Prod.fst := by
    have := congrArg (List.map Prod.fst) h.ruleNodes
    rwa [List.map_map, List.map_map] at this
  rw [node?_eq_none_iff_keys, hkeys]

theorem addRuleNode (h : Content g rules paths links) {id : String}
    (hnew : g.node? .rule id = none) (formula : String) :
    Content (g.addNode .rule id (ruleProperties formula)) (rules ++ [(id, formula)]) paths
      links where
  sound := h.sound.addNode hnew _
  ruleNodes := by
    rw [nodesOf_addNode, List.map_append, List.map_append, h.ruleNodes]
    rfl
  pathKeys := by
    rw [keys, nodesOf_addNode_of_ne g (by decide)]
    exact h.pathKeys
  attributeKeys := by
    rw [keys, nodesOf_addNode_of_ne g (by decide)]
    exact h.attributeKeys
  inPathLinks := (links_addNode h.sound _ _ _ _).trans h.inPathLinks
  hasRuleLinks := (links_addNode h.sound _ _ _ _).trans h.hasRuleLinks

/-- A path that is there is not completed again. -/
theorem old_path (h : Content g rules paths links) {path : String} (hold : path ∈ paths) :
    Content g rules (paths ++ [path]) links where
  sound := h.sound
  ruleNodes := h.ruleNodes
  pathKeys := by rw [eraseDups_concat, if_pos hold, h.pathKeys]
  attributeKeys := by
    rw [List.flatMap_append, List.flatMap_singleton, eraseDups_append_of_subset, h.attributeKeys]
    exact fun token htoken => List.mem_flatMap.2 ⟨path, hold, htoken⟩
  inPathLinks := by rw [eraseDups_concat, if_pos hold, h.inPathLinks]
  hasRuleLinks := h.hasRuleLinks

/-- A new path is completed. -/
theorem new_path (h : Content g rules paths links) {path : String} (hnew : path ∉ paths) :
    Content ((g.addNode .path path .empty).completePath path g.nodes.length) rules
      (paths ++ [path]) links := by
  have hsound := h.sound.addNode (h.node?_path_eq_none_iff.2 hnew) .empty
  have hpath := has_new g .path path .empty
  exact {
    sound := hsound.completePath path hpath
    ruleNodes := by
      rw [nodesOf_completePath, nodesOf_ensureAll_of_ne _ (by decide),
        nodesOf_addNode_of_ne g (by decide)]
      exact h.ruleNodes
    pathKeys := by
      rw [keys, nodesOf_completePath, nodesOf_ensureAll_of_ne _ (by decide), nodesOf_addNode,
        List.map_append, eraseDups_concat, if_neg hnew, ← h.pathKeys]
      rfl
    attributeKeys := by
      rw [keys, nodesOf_completePath, List.flatMap_append, List.flatMap_singleton]
      apply keys_ensureAll
      rw [keys, nodesOf_addNode_of_ne g (by decide)]
      exact h.attributeKeys
    inPathLinks := by
      rw [links_completePath hsound hpath, if_pos rfl, links_addNode h.sound, h.inPathLinks,
        eraseDups_concat, if_neg hnew, List.filterMap_append]
      cases hlead : leadLink? path <;> simp [hlead]
    hasRuleLinks := by
      rw [links_completePath hsound hpath, if_neg (by decide), List.append_nil,
        links_addNode h.sound, h.hasRuleLinks] }

theorem ensurePath (h : Content g rules paths links) (path : String) :
    Content (g.ensurePath path) rules (paths ++ [path]) links := by
  obtain ⟨n, hn, heq, _⟩ | ⟨hnone, heq, _⟩ := ensurePath_cases g path
  · rw [heq]
    refine h.old_path (by_contra fun hnot => ?_)
    cases hn.symm.trans (h.node?_path_eq_none_iff.2 hnot)
  · rw [heq]
    exact h.new_path (h.node?_path_eq_none_iff.1 hnone)

/-- One more link to a rule that there is. -/
theorem linkPath (h : Content g rules paths links) {id : String} {rule : Nat}
    (hrule : g.Has ⟨rule, .rule, id⟩) (path : String) :
    Content (g.linkPath rule path) rules (paths ++ [path]) (links ++ [(path, id)]) := by
  have hnext := h.ensurePath path
  have hpath := h.sound.has_ensurePath path
  have hrule := hrule.ensurePath path
  exact {
    sound := hnext.sound.addEdge _ hpath.lt hrule.lt _
    ruleNodes := hnext.ruleNodes
    pathKeys := hnext.pathKeys
    attributeKeys := hnext.attributeKeys
    inPathLinks := by
      rw [Snapshot.linkPath, links_addEdge, if_neg (by decide), List.append_nil, hnext.inPathLinks]
    hasRuleLinks := by
      rw [Snapshot.linkPath, links_addEdge, if_pos rfl, hnext.hasRuleLinks, hpath.nameOf,
        hrule.nameOf, List.map_append]
      rfl }

theorem linkPaths (h : Content g rules paths links) {id : String} {rule : Nat}
    (hrule : g.Has ⟨rule, .rule, id⟩) (ps : List String) :
    Content (ps.foldl (Snapshot.linkPath rule) g) rules (paths ++ ps)
      (links ++ ps.map fun p => (p, id)) := by
  induction ps generalizing g paths links with
  | nil => simpa using h
  | cons p ps ih =>
    have := ih (h.linkPath hrule p) (hrule.linkPath rule p)
    rwa [List.append_assoc, List.append_assoc] at this

/-- One more rule with its paths. -/
theorem addRule (h : Content g rules paths links) {id : String} (hnew : g.node? .rule id = none)
    (formula : String) (ps : List String) :
    Content (g.addRule id formula ps) (rules ++ [(id, formula)]) (paths ++ ps)
      (links ++ ps.map fun p => (p, id)) :=
  (h.addRuleNode hnew formula).linkPaths (has_new g .rule id _) ps

end Content

end Snapshot

/-! ### The graph of some rules -/

open Snapshot

/-- The graph of some rules, which are added one after the other. -/
def ruleGraph (rules : List RuleDefinition) : Snapshot :=
  rules.foldl (fun g r => g.addRule r.id r.formula (Minimizer.pathsOf r.formula)) .empty

theorem ruleGraph_append (rules rules' : List RuleDefinition) :
    ruleGraph (rules ++ rules') = rules'.foldl
      (fun g r => g.addRule r.id r.formula (Minimizer.pathsOf r.formula)) (ruleGraph rules) :=
  List.foldl_append

theorem ruleGraph_concat (rules : List RuleDefinition) (r : RuleDefinition) :
    ruleGraph (rules ++ [r]) =
      (ruleGraph rules).addRule r.id r.formula (Minimizer.pathsOf r.formula) :=
  ruleGraph_append rules [r]

theorem ruleGraph_singleton {m : Minimizer} {r : RuleDefinition} {paths : List String}
    (h : m.paths r.formula = .ok paths) :
    ruleGraph [r] = Snapshot.empty.addRule r.id r.formula paths := by
  rw [(Minimizer.pathsOf_of_paths h).1]
  rfl

theorem ruleGraph_pair {m m' : Minimizer} {r r' : RuleDefinition} {paths paths' : List String}
    (h : m.paths r.formula = .ok paths) (h' : m'.paths r'.formula = .ok paths') :
    ruleGraph [r, r'] =
      (Snapshot.empty.addRule r.id r.formula paths).addRule r'.id r'.formula paths' := by
  rw [(Minimizer.pathsOf_of_paths h).1, (Minimizer.pathsOf_of_paths h').1]
  rfl

theorem below_ruleGraph_append (rules rules' : List RuleDefinition) :
    Below (ruleGraph rules) (ruleGraph (rules ++ rules')) := by
  rw [ruleGraph_append]
  generalize ruleGraph rules = g
  induction rules' generalizing g with
  | nil => exact .refl g
  | cons r rules' ih => exact (below_addRule g _ _ _).trans (ih _)

/-- What a graph of rules with different ids holds. -/
theorem content_ruleGraph {rules : List RuleDefinition}
    (h : (rules.map RuleDefinition.id).Nodup) :
    Content (ruleGraph rules) (rules.map fun r => (r.id, r.formula))
      (rules.flatMap fun r => Minimizer.pathsOf r.formula)
      (rules.flatMap fun r => (Minimizer.pathsOf r.formula).map fun p => (p, r.id)) := by
  induction rules using List.reverseRecOn with
  | nil => exact content_empty
  | append_singleton rules r ih =>
    rw [List.map_append, List.nodup_append] at h
    have hcontent := ih h.1
    have hnew : (ruleGraph rules).node? .rule r.id = none := by
      rw [hcontent.node?_rule_eq_none_iff, List.map_map]
      exact fun hmem => h.2.2 r.id hmem r.id (by simp) rfl
    rw [ruleGraph_concat, List.map_append, List.flatMap_append, List.flatMap_append]
    simpa using hcontent.addRule hnew r.formula (Minimizer.pathsOf r.formula)

theorem node?_ruleGraph_eq_none_iff {rules : List RuleDefinition}
    (h : (rules.map RuleDefinition.id).Nodup) {id : String} :
    (ruleGraph rules).node? .rule id = none ↔ id ∉ rules.map RuleDefinition.id := by
  rw [(content_ruleGraph h).node?_rule_eq_none_iff, List.map_map]
  rfl

end RulePaths
