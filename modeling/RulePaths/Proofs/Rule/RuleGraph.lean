import RulePaths.Path.Tokens
import RulePaths.Proofs.Graph.Reference

/-!
# The graph with one more rule

What compiling a rule adds to a graph, said without a store: nodes that are missing, an edge into
every new path and an edge from every path of the rule.

## Main definitions

- `Snapshot.ensure` — a node is added unless it is there
- `Snapshot.linkPath` — one more path is linked to a rule
- `Snapshot.addRule` — a rule is added with its paths

## Main results

- `Snapshot.Sound.addRule` — the graph with one more rule is sound
-/

namespace RulePaths

namespace Snapshot

/-- The graph with a node of a kind with a key, which is added unless it is there. -/
def ensure (kind : NodeKind) (g : Snapshot) (key : String) : Snapshot :=
  if (g.node? kind key).isSome then g else g.addNode kind key .empty

/-- The reference of a node of a kind with a key. A node that is missing gets the next number. -/
def refOf (g : Snapshot) (kind : NodeKind) (key : String) : NodeRef :=
  ⟨((g.node? kind key).map NodeRecord.id).getD g.nodes.length, kind, key⟩

/-- The graph with the attributes of a path and the edge from the first of them to the path. -/
def completePath (g : Snapshot) (path : String) (node : Nat) : Snapshot :=
  let tokens := Path.attributeTokens path
  let h := tokens.foldl (ensure .attr) g
  match tokens.head? with
  | some lead =>
    h.addEdge .inPath (g.refOf .attr lead).id node (Table.empty.insert pathProperty path)
  | none => h

/-- The graph with a path, which is added and completed unless it is there. -/
def ensurePath (g : Snapshot) (path : String) : Snapshot :=
  if (g.node? .path path).isSome then g
  else (g.addNode .path path .empty).completePath path g.nodes.length

/-- The graph with one more path linked to a rule. -/
def linkPath (rule : Nat) (g : Snapshot) (path : String) : Snapshot :=
  (g.ensurePath path).addEdge .hasRule (g.refOf .path path).id rule .empty

/-- The properties of a rule with a formula. -/
def ruleProperties (formula : String) : Properties :=
  Table.empty.insert formulaProperty formula

/-- The graph with one more rule. -/
def addRule (g : Snapshot) (id formula : String) (paths : List String) : Snapshot :=
  paths.foldl (linkPath g.nodes.length) (g.addNode .rule id (ruleProperties formula))

variable {g h : Snapshot} {kind kind' : NodeKind} {key : String} {node : NodeRef}

/-! ### Nodes that are added unless they are there -/

theorem ensure_of_node? {n : NodeRecord} (hn : g.node? kind key = some n) :
    g.ensure kind key = g := by
  simp [ensure, hn]

theorem ensure_of_none (hnew : g.node? kind key = none) :
    g.ensure kind key = g.addNode kind key .empty := by
  simp [ensure, hnew]

theorem refOf_of_node? {n : NodeRecord} (hn : g.node? kind key = some n) :
    g.refOf kind key = n.toRef := by
  have hname := name_of_node? hn
  simp only [NodeRecord.name, Prod.mk.injEq] at hname
  simp [refOf, hn, NodeRecord.toRef, hname.1, hname.2]

theorem refOf_of_none (hnew : g.node? kind key = none) :
    g.refOf kind key = ⟨g.nodes.length, kind, key⟩ := by
  simp [refOf, hnew]

/-- A node is there already or it is the next one. -/
theorem ensure_cases (g : Snapshot) (kind : NodeKind) (key : String) :
    (∃ n, g.node? kind key = some n ∧ g.ensure kind key = g ∧ g.refOf kind key = n.toRef) ∨
      (g.node? kind key = none ∧ g.ensure kind key = g.addNode kind key .empty ∧
        g.refOf kind key = ⟨g.nodes.length, kind, key⟩) := by
  cases hfound : g.node? kind key with
  | some n => exact .inl ⟨n, rfl, ensure_of_node? hfound, refOf_of_node? hfound⟩
  | none => exact .inr ⟨rfl, ensure_of_none hfound, refOf_of_none hfound⟩

theorem below_ensure (kind : NodeKind) (g : Snapshot) (key : String) :
    Below g (g.ensure kind key) := by
  unfold ensure
  split
  · exact .refl g
  · exact .addNode g kind key .empty

theorem Sound.ensure (hg : g.Sound) (kind : NodeKind) (key : String) :
    (g.ensure kind key).Sound := by
  unfold Snapshot.ensure
  split
  · exact hg
  · next hnew => exact hg.addNode (by simpa using hnew) .empty

theorem Has.ensure (hn : g.Has node) (kind : NodeKind) (key : String) :
    (g.ensure kind key).Has node := by
  unfold Snapshot.ensure
  split
  · exact hn
  · exact hn.addNode kind key .empty

theorem Sound.has_ensure (hg : g.Sound) (kind : NodeKind) (key : String) :
    (g.ensure kind key).Has (g.refOf kind key) := by
  obtain ⟨n, hn, hensure, href⟩ | ⟨_, hensure, href⟩ := ensure_cases g kind key
  · rw [hensure, href]
    exact hg.has_of_node? hn
  · rw [hensure, href]
    exact has_new g kind key .empty

/-! ### Counting nodes -/

@[simp] theorem counts_addEdge_paths (g : Snapshot) (kind : EdgeKind) (source target : Nat)
    (ps : Properties) : (g.addEdge kind source target ps).counts.paths = g.counts.paths :=
  rfl

theorem counts_addNode_paths (g : Snapshot) (kind : NodeKind) (key : String) (ps : Properties) :
    (g.addNode kind key ps).counts.paths = g.counts.paths + (kind == .path).toNat := by
  cases kind <;> simp [counts, nodesOf]

theorem counts_addNode_attributes (g : Snapshot) (kind : NodeKind) (key : String)
    (ps : Properties) :
    (g.addNode kind key ps).counts.attributes = g.counts.attributes + (kind == .attr).toNat := by
  cases kind <;> simp [counts, nodesOf]

theorem counts_ensure_attributes (g : Snapshot) (key : String) :
    (g.ensure .attr key).counts.attributes =
      g.counts.attributes + (g.node? .attr key).isNone.toNat := by
  cases hfound : g.node? .attr key with
  | some n => rw [ensure_of_node? hfound]; rfl
  | none => rw [ensure_of_none hfound, counts_addNode_attributes]; rfl

theorem counts_ensureAll_paths (g : Snapshot) (keys : List String) :
    (keys.foldl (ensure .attr) g).counts.paths = g.counts.paths := by
  induction keys generalizing g with
  | nil => rfl
  | cons key keys ih =>
    rw [List.foldl_cons, ih]
    cases hfound : g.node? .attr key with
    | some n => rw [ensure_of_node? hfound]
    | none => rw [ensure_of_none hfound, counts_addNode_paths]; rfl

/-! ### The attributes of a path -/

section

variable (keys : List String)

theorem below_ensureAll (kind : NodeKind) (g : Snapshot) :
    Below g (keys.foldl (ensure kind) g) := by
  induction keys generalizing g with
  | nil => exact .refl g
  | cons key keys ih => exact (below_ensure kind g key).trans (ih _)

theorem Sound.ensureAll (hg : g.Sound) (kind : NodeKind) :
    (keys.foldl (Snapshot.ensure kind) g).Sound := by
  induction keys generalizing g with
  | nil => exact hg
  | cons key keys ih => exact ih (hg.ensure kind key)

theorem Has.ensureAll (hn : g.Has node) (kind : NodeKind) :
    (keys.foldl (Snapshot.ensure kind) g).Has node := by
  induction keys generalizing g with
  | nil => exact hn
  | cons key keys ih => exact ih (hn.ensure kind key)

end

theorem Sound.has_lead (hg : g.Sound) {keys : List String} {lead : String}
    (hlead : keys.head? = some lead) (kind : NodeKind) :
    (keys.foldl (Snapshot.ensure kind) g).Has (g.refOf kind lead) := by
  cases keys with
  | nil => cases hlead
  | cons key keys =>
    cases hlead
    exact (hg.has_ensure kind lead).ensureAll keys kind

/-! ### Paths -/

/-- A path is completed by its attributes and, if it has one, by an edge from the first. -/
theorem completePath_cases (g : Snapshot) (path : String) (node : Nat) :
    (∃ lead, (Path.attributeTokens path).head? = some lead ∧
      g.completePath path node =
        ((Path.attributeTokens path).foldl (ensure .attr) g).addEdge .inPath
          (g.refOf .attr lead).id node (Table.empty.insert pathProperty path)) ∨
      ((Path.attributeTokens path).head? = none ∧
        g.completePath path node = (Path.attributeTokens path).foldl (ensure .attr) g) := by
  cases hlead : (Path.attributeTokens path).head? with
  | none => exact .inr ⟨rfl, by simp only [completePath, hlead]⟩
  | some lead => exact .inl ⟨lead, rfl, by simp only [completePath, hlead]⟩

theorem below_completePath (g : Snapshot) (path : String) (node : Nat) :
    Below g (g.completePath path node) := by
  have hall := below_ensureAll (Path.attributeTokens path) .attr g
  obtain ⟨lead, _, heq⟩ | ⟨_, heq⟩ := completePath_cases g path node
  · rw [heq]
    exact hall.trans (.addEdge _ _ _ _ _)
  · rw [heq]
    exact hall

theorem Has.completePath (hn : g.Has node) (path : String) (target : Nat) :
    (g.completePath path target).Has node := by
  have hall := hn.ensureAll (Path.attributeTokens path) .attr
  obtain ⟨lead, _, heq⟩ | ⟨_, heq⟩ := completePath_cases g path target
  · rw [heq]
    exact hall.addEdge _ _ _ _
  · rw [heq]
    exact hall

theorem Sound.completePath (hg : g.Sound) (path : String) (hn : g.Has node) :
    (g.completePath path node.id).Sound := by
  have hall := hg.ensureAll (Path.attributeTokens path) .attr
  obtain ⟨lead, hlead, heq⟩ | ⟨_, heq⟩ := completePath_cases g path node.id
  · rw [heq]
    exact hall.addEdge _ (hg.has_lead hlead .attr).lt (hn.ensureAll _ _).lt _
  · rw [heq]
    exact hall

theorem counts_completePath_paths (g : Snapshot) (path : String) (node : Nat) :
    (g.completePath path node).counts.paths = g.counts.paths := by
  obtain ⟨lead, _, heq⟩ | ⟨_, heq⟩ := completePath_cases g path node
  · rw [heq, counts_addEdge_paths, counts_ensureAll_paths]
  · rw [heq, counts_ensureAll_paths]

/-- A path is there already or it is the next node, and is completed. -/
theorem ensurePath_cases (g : Snapshot) (path : String) :
    (∃ n, g.node? .path path = some n ∧ g.ensurePath path = g ∧
      g.refOf .path path = n.toRef) ∨
      (g.node? .path path = none ∧
        g.ensurePath path = (g.addNode .path path .empty).completePath path g.nodes.length ∧
        g.refOf .path path = ⟨g.nodes.length, .path, path⟩) := by
  cases hfound : g.node? .path path with
  | some n => exact .inl ⟨n, rfl, by simp [ensurePath, hfound], refOf_of_node? hfound⟩
  | none => exact .inr ⟨rfl, by simp [ensurePath, hfound], refOf_of_none hfound⟩

theorem below_ensure_ensurePath (g : Snapshot) (path : String) :
    Below (g.ensure .path path) (g.ensurePath path) := by
  obtain ⟨n, hn, heq, _⟩ | ⟨hnew, heq, _⟩ := ensurePath_cases g path
  · rw [heq, ensure_of_node? hn]
    exact .refl g
  · rw [heq, ensure_of_none hnew]
    exact below_completePath _ _ _

theorem below_ensurePath (g : Snapshot) (path : String) : Below g (g.ensurePath path) :=
  (below_ensure .path g path).trans (below_ensure_ensurePath g path)

theorem Has.ensurePath (hn : g.Has node) (path : String) : (g.ensurePath path).Has node := by
  obtain ⟨_, _, heq, _⟩ | ⟨_, heq, _⟩ := ensurePath_cases g path
  · rw [heq]
    exact hn
  · rw [heq]
    exact (hn.addNode _ _ _).completePath _ _

theorem Sound.ensurePath (hg : g.Sound) (path : String) : (g.ensurePath path).Sound := by
  obtain ⟨_, _, heq, _⟩ | ⟨hnew, heq, _⟩ := ensurePath_cases g path
  · rw [heq]
    exact hg
  · rw [heq]
    exact (hg.addNode hnew .empty).completePath path (has_new g .path path .empty)

theorem Sound.has_ensurePath (hg : g.Sound) (path : String) :
    (g.ensurePath path).Has (g.refOf .path path) := by
  obtain ⟨n, hn, heq, href⟩ | ⟨_, heq, href⟩ := ensurePath_cases g path
  · rw [heq, href]
    exact hg.has_of_node? hn
  · rw [heq, href]
    exact (has_new g .path path .empty).completePath _ _

theorem below_linkPath (rule : Nat) (g : Snapshot) (path : String) :
    Below g (g.linkPath rule path) :=
  (below_ensurePath g path).trans (.addEdge _ _ _ _ _)

theorem Has.linkPath (hn : g.Has node) (rule : Nat) (path : String) :
    (g.linkPath rule path).Has node :=
  (hn.ensurePath path).addEdge _ _ _ _

theorem Sound.linkPath (hg : g.Sound) {rule : NodeRef} (hrule : g.Has rule) (path : String) :
    (g.linkPath rule.id path).Sound :=
  (hg.ensurePath path).addEdge _ (hg.has_ensurePath path).lt (hrule.ensurePath path).lt _

/-! ### Rules -/

theorem below_linkPaths (rule : Nat) (g : Snapshot) (paths : List String) :
    Below g (paths.foldl (linkPath rule) g) := by
  induction paths generalizing g with
  | nil => exact .refl g
  | cons path paths ih => exact (below_linkPath rule g path).trans (ih _)

theorem below_addRule (g : Snapshot) (id formula : String) (paths : List String) :
    Below g (g.addRule id formula paths) :=
  (Below.addNode g .rule id (ruleProperties formula)).trans (below_linkPaths _ _ paths)

theorem Sound.linkPaths (hg : g.Sound) {rule : NodeRef} (hrule : g.Has rule) (paths : List String) :
    (paths.foldl (Snapshot.linkPath rule.id) g).Sound := by
  induction paths generalizing g with
  | nil => exact hg
  | cons path paths ih => exact ih (hg.linkPath hrule path) (hrule.linkPath rule.id path)

theorem Sound.addRule (hg : g.Sound) {id : String} (hnew : g.node? .rule id = none)
    (formula : String) (paths : List String) : (g.addRule id formula paths).Sound :=
  (hg.addNode hnew _).linkPaths (has_new g .rule id _) paths

end Snapshot

end RulePaths
