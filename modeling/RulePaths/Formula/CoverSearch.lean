import RulePaths.Formula.Implicant

/-!
# The search for a minimal cover

A cover problem has candidates, which are implicants at places of a list, and clauses, one
for each row to cover: the candidates that cover it. A selection of candidates solves the
problem if every clause has one of them. Among the selections that do, the cheapest is
sought: the one with the fewest candidates, then the fewest literals, then the lowest
sequence of terms.

`search` is branch and bound. A `Node` is a problem that is left after some candidates were
selected and others given up. It branches on the first of the clauses with the fewest
candidates: each of them in turn is selected, after the ones before it were given up. A node
is left alone when its lower bound shows that nothing below it is cheaper than the best
selection so far. The first best selection is `greedy`, which always takes a candidate of the
most open clauses.
-/

namespace RulePaths

/-- An implicant that is offered for a cover; `index` is its place in the offered list. Its
literals are kept at hand. -/
structure Candidate where
  index : Nat
  implicant : Implicant
  term : Term := implicant.positions
  term_eq : term = implicant.positions := by rfl

/-- The candidates of which a cover needs at least one, ascending by place. -/
abbrev Clause := List Candidate

/-- Clauses in the order in which they are branched on: those with fewer candidates first, those
of equal size in the order of the sequences of places. -/
def Clause.compareBySize (c d : Clause) : Ordering :=
  (compare c.length d.length).then (compare (c.map Candidate.index) (d.map Candidate.index))

/-- A set of candidates, without repeats. -/
abbrev Selection := List Candidate

namespace Candidate

theorem ext {a b : Candidate} (hindex : a.index = b.index)
    (himplicant : a.implicant = b.implicant) : a = b := by
  obtain ⟨i, p, s, hs⟩ := a
  obtain ⟨j, q, t, ht⟩ := b
  subst hindex himplicant hs ht
  rfl

/-- Place and implicant tell candidates apart. -/
instance : DecidableEq Candidate := fun a b =>
  if hindex : a.index = b.index then
    if himplicant : a.implicant = b.implicant then .isTrue (ext hindex himplicant)
    else .isFalse fun h => himplicant (h ▸ rfl)
  else .isFalse fun h => hindex (h ▸ rfl)

/-- Candidates in the order of their terms, those of equal terms in the order of places. -/
def compareByTerm (a b : Candidate) : Ordering :=
  (compare a.term b.term).then (compare a.index b.index)

end Candidate

namespace Selection

/-- The number of literals in all terms of a selection. -/
def literals (s : Selection) : Nat :=
  s.foldr (fun c count => c.term.length + count) 0

/-- The terms of a selection, ascending. -/
def terms (s : Selection) : List Term :=
  (s.map Candidate.term).mergeSort fun a b => (compare a b).isLE

/-- The comparison by which covers are judged: by number of candidates, then by number of
literals, then by the ascending sequence of terms. -/
def compareCost (s t : Selection) : Ordering :=
  (compare s.length t.length).then
    ((compare s.literals t.literals).then (compare s.terms t.terms))

end Selection

namespace CoverSearch

/-! ### The greedy selection -/

/-- The number of clauses that a candidate belongs to. -/
def hits (clauses : List Clause) (c : Candidate) : Nat :=
  clauses.countP fun clause => clause.contains c

/-- Whether a candidate with `n` hits is a better greedy choice than one with `m`: it has more
hits, or as many and fewer literals, or as many of both and an earlier place. -/
def isBetterPick : Nat × Candidate → Nat × Candidate → Bool
  | (n, a), (m, b) =>
    ((compare m n).then
      ((compare a.term.length b.term.length).then
        (compare a.index b.index))).isLT

/-- The best greedy choice among the candidates `all`, if any of them has a hit. -/
def pick? (all : Selection) (clauses : List Clause) : Option Candidate :=
  let scored := (all.map fun c => (hits clauses c, c)).filter fun (n, _) => n != 0
  match scored with
  | [] => none
  | first :: rest =>
    some (rest.foldl (fun best c => if isBetterPick c best then c else best) first).2

/-- The clauses without a given candidate. -/
def without (c : Candidate) (clauses : List Clause) : List Clause :=
  clauses.filter fun clause => !clause.contains c

/-- At most `rounds` greedy choices, each among the clauses that the ones before left open. -/
def greedyRounds (all : Selection) : Nat → List Clause → Selection
  | 0, _ => []
  | rounds + 1, clauses =>
    match pick? all clauses with
    | none => []
    | some c => c :: greedyRounds all rounds (without c clauses)

/-- Greedy choices until no open clause has a candidate; each choice closes a clause. -/
def greedy (all : Selection) (clauses : List Clause) : Selection :=
  greedyRounds all clauses.length clauses

/-! ### Nodes and bounds -/

/-- A problem left over: the clauses that are open, reduced to the candidates that are still
allowed, the candidates selected so far, and those allowed, ascending by term. -/
structure Node where
  clauses : List Clause
  selected : Selection
  free : Selection
deriving DecidableEq

namespace Node

/-- The problem left of some clauses over all candidates `all`, which ascend by term, after
some were selected and some excluded. -/
def of (all : Selection) (clauses : List Clause) (selected excluded : Selection) : Node where
  clauses :=
    (clauses.filter fun clause => !clause.any selected.contains).map fun clause =>
      clause.filter fun c => !excluded.contains c
  selected := selected
  free := all.filter fun c => !selected.contains c && !excluded.contains c

/-- The open clauses, those with the fewest candidates first. -/
def ordered (n : Node) : List Clause :=
  n.clauses.mergeSort fun c d => (Clause.compareBySize c d).isLE

/-- Some open clause has no allowed candidate. -/
def isDead (n : Node) : Bool :=
  n.clauses.any List.isEmpty

/-- How many clauses a pass through a list takes that share no candidate with a clause taken
before. Each of them needs a candidate of its own. -/
def disjointCount (used : Selection) : List Clause → Nat
  | [] => 0
  | clause :: rest =>
    if clause.any used.contains then disjointCount used rest
    else disjointCount (clause ++ used) rest + 1

/-- The lower bound on the number of candidates that are still needed. -/
def needed (n : Node) : Nat :=
  disjointCount [] n.ordered

/-- The selection with the lowest terms that has the size of `best` and extends the node,
whether it solves the problem or not. -/
def lowest (n : Node) (best : Selection) : Selection :=
  n.selected ++ n.free.take (best.length - n.selected.length)

/-- Whether a selection below the node that ties with `best` on size and literals could still
come before it. -/
def maySortBelow (n : Node) (best : Selection) : Bool :=
  (compare (n.lowest best).terms best.terms).isLT

/-- Whether the bounds show that nothing below the node is cheaper than `best`, where no
candidate has fewer than `least` literals. -/
def isPruned (n : Node) (least : Nat) (best : Selection) : Bool :=
  let size := n.selected.length + n.needed
  let literals := n.selected.literals + n.needed * least
  match (compare size best.length).then (compare literals best.literals) with
  | .gt => true
  | .eq => !n.maySortBelow best
  | .lt => false

/-- The problem left after a candidate was selected. -/
def select (c : Candidate) (n : Node) : Node where
  clauses := without c n.clauses
  selected := c :: n.selected
  free := n.free.filter (· != c)

/-- The problem left after a candidate was given up. -/
def exclude (c : Candidate) (n : Node) : Node :=
  { n with
    clauses := n.clauses.map (List.filter (· != c))
    free := n.free.filter (· != c) }

/-- The problems to solve instead of a node that branches on the candidates of a clause: each
of them is selected after those before it were given up. None are listed once a clause has
lost all its candidates. -/
def children (n : Node) : Clause → List Node
  | [] => []
  | c :: cs => if n.isDead then [] else n.select c :: (n.exclude c).children cs

end Node

/-! ### The search -/

/-- The cheaper one of a selection that solves a problem and the best one so far. -/
def improve (found best : Selection) : Selection :=
  if (Selection.compareCost found best).isLT then found else best

/-- The cheapest of `best` and the selections below a node, where no candidate has fewer than
`least` literals. Every branch closes a clause, so `depth` may be the number of clauses. -/
def search (least : Nat) : Nat → Node → Selection → Selection
  | depth, n, best =>
    if n.isDead then best
    else match n.ordered with
    | [] => improve n.selected best
    | branch :: _ =>
      if n.isPruned least best then best
      else match depth with
      | 0 => best
      | depth + 1 =>
        (n.children branch).foldl (fun best child => search least depth child best) best

/-- The least number of literals of any candidate, zero if there is none. -/
def leastLiterals (all : Selection) : Nat :=
  ((all.map fun c => c.term.length).min?).getD 0

/-- The cheapest selection for some clauses over all candidates `all`. -/
def solve (all : Selection) (clauses : List Clause) : Selection :=
  let byTerm := all.mergeSort fun a b => (Candidate.compareByTerm a b).isLE
  search (leastLiterals all) clauses.length (Node.of byTerm clauses [] []) (greedy all clauses)

end CoverSearch

end RulePaths
