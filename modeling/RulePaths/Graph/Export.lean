import RulePaths.Graph.Snapshot

/-!
# Export

The graph with every number replaced by the key of the node it stands for. All lists are in
ascending order of their texts, so the export shows the graph itself and nothing of how it
came about.
-/

namespace RulePaths

/-- Texts in ascending order, repeats kept. -/
def sortTexts (ts : List String) : List String :=
  ts.mergeSort fun a b => (compare a b).isLE

/-- A rule with its formula and the paths that imply it. -/
structure RuleEntry where
  id : String
  formula : String
  paths : List String
deriving DecidableEq, Inhabited

/-- A path with the attribute that leads it and the rules that it implies. -/
structure PathEntry where
  id : String
  lead : Option String
  rules : List String
deriving DecidableEq, Inhabited

/-- The whole graph by keys. -/
structure GraphExport where
  rules : List RuleEntry
  paths : List PathEntry
  attributes : List String
deriving DecidableEq, Inhabited

namespace Snapshot

/-- The entry of a rule. An edge whose source is missing adds nothing. -/
def ruleEntry (s : Snapshot) (rule : NodeRecord) : RuleEntry where
  id := rule.key
  formula := (rule.properties.get? formulaProperty).getD ""
  paths := sortTexts ((s.edgesInto .hasRule rule.id).filterMap fun e => s.keyOf? e.source)

/-- The entry of a path. Its lead is the first source found. -/
def pathEntry (s : Snapshot) (path : NodeRecord) : PathEntry where
  id := path.key
  lead := (s.edgesInto .inPath path.id).findSome? fun e => s.keyOf? e.source
  rules := sortTexts ((s.edgesOutOf .hasRule path.id).filterMap fun e => s.keyOf? e.target)

/-- The export of a graph. Entries of equal id keep the order of their nodes. -/
def toExport (s : Snapshot) : GraphExport where
  rules := ((s.nodesOf .rule).map s.ruleEntry).mergeSort fun a b => (compare a.id b.id).isLE
  paths := ((s.nodesOf .path).map s.pathEntry).mergeSort fun a b => (compare a.id b.id).isLE
  attributes := sortTexts ((s.nodesOf .attr).map NodeRecord.key)

end Snapshot

end RulePaths
