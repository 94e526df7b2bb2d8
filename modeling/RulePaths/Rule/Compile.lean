import RulePaths.Failure
import RulePaths.Formula.Minimizer
import RulePaths.Graph.GraphStore
import RulePaths.Path.Tokens

/-!
# Compiling rules

A rule is compiled by linking the paths of its formula to it in the graph. Its node keeps the
formula. A path that is in the graph already is shared. Any other path is created together
with those of its attributes that are missing, and an edge from the first of its attributes
leads to it. Every path of the rule then gets an edge to the rule.

`compile` works in two steps. The first, `prepare`, looks whether the id is taken and
minimizes the formula. The second, `enact`, writes all that belongs to the rule in a single
transaction, so either all of it is committed or nothing. The id may be taken, and paths and
attributes may be created, by other writers between the two steps: what a transaction cannot
create because it exists is not an error.
-/

namespace RulePaths

/-- What the creation of a rule added to the graph: the paths linked to it, and how many of
them and of their attributes are new. -/
structure Creation where
  paths : Nat
  newPaths : Nat
  newAttributes : Nat
deriving DecidableEq, Inhabited

/-- What became of a rule that was to be compiled. -/
inductive Outcome where
  /-- The rule was created. -/
  | created (c : Creation)
  /-- There was a rule with this id, and nothing was written. -/
  | duplicate
deriving DecidableEq, Inhabited

/-- The answer to a compilation. -/
structure Acknowledgment where
  message : String
  outcome : Outcome
deriving DecidableEq, Inhabited

namespace Acknowledgment

/-- The answer for a rule that was created. -/
def created (formula : String) (c : Creation) : Acknowledgment :=
  ⟨"Rule " ++ formula ++ " created.", .created c⟩

/-- The answer for a rule whose id was taken. -/
def duplicate (id : String) : Acknowledgment :=
  ⟨"Rule " ++ id ++ " already exists.", .duplicate⟩

/-- Whether nothing was done. -/
def isNoop (a : Acknowledgment) : Bool :=
  a.outcome == .duplicate

end Acknowledgment

namespace Compile

variable {σ τ : Type} [GraphStore σ τ]

/-! ### The calls of the transaction -/

/-- The node of a kind with a key, and whether it had to be created. -/
def getOrCreate (kind : NodeKind) (key : String) : StoreM (σ × τ) (NodeRef × Bool) := do
  match ← GraphStore.perform (.find kind key) with
  | some node => return (node, false)
  | none =>
    match ← StoreM.observe (GraphStore.perform (.create kind key)) with
    | .ok node => return (node, true)
    | .error (.alreadyExists ..) =>
      match ← GraphStore.perform (.find kind key) with
      | some node => return (node, false)
      | none => throw (.notFound (compositeKey kind key))
    | .error e => throw e

/-- The attributes of a path in order, each with whether it had to be created. -/
def attributesOf (path : String) : StoreM (σ × τ) (List (NodeRef × Bool)) :=
  (Path.attributeTokens path).mapM (getOrCreate .attr)

/-- Completes a path that was just created with its attributes and the edge from the first of
them. The answer is how many attributes are new. -/
def completePath (path : String) (node : NodeRef) : StoreM (σ × τ) Nat := do
  let attributes ← attributesOf path
  match attributes.head? with
  | some (lead, _) =>
    let edge ← GraphStore.perform (.link .inPath lead node)
    GraphStore.perform (.setEdge edge pathProperty path)
  | none => pure ()
  return attributes.countP Prod.snd

/-- Links one more path to a rule, and counts what was created for it. -/
def linkPath (rule : NodeRef) (c : Creation) (path : String) : StoreM (σ × τ) Creation := do
  let (node, isNew) ← getOrCreate .path path
  let newAttributes ← if isNew then completePath path node else pure 0
  let _ ← GraphStore.perform (.link .hasRule node rule)
  return ⟨c.paths + 1, c.newPaths + isNew.toNat, c.newAttributes + newAttributes⟩

/-- Writes a rule with its paths, unless its id is taken. -/
def materialize (id formula : String) (paths : List String) :
    StoreM (σ × τ) (Option Creation) := do
  match ← StoreM.observe (GraphStore.perform (.create .rule id)) with
  | .error (.alreadyExists ..) => return none
  | .error e => throw e
  | .ok rule =>
    GraphStore.perform (.setNode rule formulaProperty formula)
    let c ← paths.foldlM (linkPath rule) ⟨0, 0, 0⟩
    return some c

/-! ### The two steps -/

/-- What is known of a compilation after its first step. -/
inductive Plan where
  /-- Nothing will be written. -/
  | settled (answer : Except Failure Acknowledgment)
  /-- The rule will be written with these paths. -/
  | write (paths : List String)
deriving Inhabited

/-- The first step: looks for the id among the committed rules and finds the paths of the
formula. The id is looked at first, so a rule that exists is acknowledged whatever formula
comes with it. -/
def prepare (m : Minimizer) (id formula : String) : StateM σ Plan := do
  if Blank.isBlankText id then return .settled (.error (.rule .emptyId))
  match ← (GraphStore.lookup .rule id).run with
  | .error e => return .settled (.error (.store e))
  | .ok (some _) => return .settled (.ok (.duplicate id))
  | .ok none =>
    match m.paths formula with
    | .error e => return .settled (.error (.formula e))
    | .ok paths => return .write paths

/-- The second step: one transaction that writes the rule. If any of its calls fails it is
rolled back and the failure of that call is the answer, even if the rollback fails too. -/
def enact (id formula : String) (paths : List String) :
    StateM σ (Except Failure Acknowledgment) := fun s =>
  match GraphStore.start s with
  | (.error e, s) => (.error (.store e), s)
  | (.ok t, s) =>
    match materialize id formula paths (s, t) with
    | (.ok (some c), s, t) =>
      match GraphStore.commit t s with
      | (.ok (), s) => (.ok (.created formula c), s)
      | (.error e, s) => (.error (.store e), s)
    | (.ok none, s, t) =>
      match GraphStore.rollback t s with
      | (.ok (), s) => (.ok (.duplicate id), s)
      | (.error e, s) => (.error (.store e), s)
    | (.error e, s, t) => (.error (.store e), (GraphStore.rollback t s).2)

end Compile

/-- Compiles a rule into a store. -/
def compile {σ τ : Type} [GraphStore σ τ] (m : Minimizer) (id formula : String) :
    StateM σ (Except Failure Acknowledgment) := do
  match ← Compile.prepare m id formula with
  | .settled answer => return answer
  | .write paths => Compile.enact id formula paths

end RulePaths
