import RulePaths.Proofs.Cover.Coverage
import RulePaths.Proofs.Cover.Pruning
import Mathlib.Logic.Function.Iterate

/-!
# The counts of a search

A search counts what it has selected, the literals of that, and how many candidates it needs at
least. Each selected candidate has closed a clause that was open, and the disjoint clauses of the
bound are open still, so candidates and bound together are at most the clauses. With a bound on the
literals of every candidate this bounds the counts of literals, and the words that hold them do not
overflow if the product of both bounds fits.

The search is told as a loop here, which takes the next one of the nodes that wait. A step of the
loop makes nodes by branching and takes the best selection from a node or leaves it, and so does a
run.

## Main definitions

- `Loop.step` — one turn of the loop, `Loop.after` — what it holds after some turns
- `Node.FitsWords`, `CoverSearch.FitsWords` — the counts fit, at a node and in a search

## Main results

- `Loop.exists_after_eq` — the loop ends with the answer of the search
- `Node.Below.length_selected_add_le` — what was selected has closed as many clauses
- `fitsWords_of_bounded` — the counts of a search fit if the bounds on clauses and literals do
-/

namespace RulePaths

namespace CoverSearch

/-! ### The loop -/

/-- A search between two turns: the nodes that wait, the next one first, and the best selection so
far. -/
structure Loop where
  waiting : List Node
  best : Selection

namespace Loop

/-- One turn of the loop. It stays as it is once no node is waiting. -/
def step (least : Nat) (l : Loop) : Loop :=
  match l.waiting with
  | [] => l
  | n :: ns =>
    if n.isDead then { l with waiting := ns }
    else match n.ordered with
    | [] => ⟨ns, improve n.selected l.best⟩
    | branch :: _ =>
      if n.isPruned least l.best then { l with waiting := ns }
      else { l with waiting := n.children branch ++ ns }

/-- What the loop for some clauses over all candidates holds after some turns. -/
def after (all : Selection) (clauses : List Clause) (turns : Nat) : Loop :=
  (step (leastLiterals all))^[turns] ⟨[root all clauses], greedy all clauses⟩

theorem exists_iterate_of_step {least : Nat} {l l' : Loop}
    (h : ∃ turns, (step least)^[turns] (l.step least) = l') :
    ∃ turns, (step least)^[turns] l = l' := by
  obtain ⟨turns, h⟩ := h
  exact ⟨turns + 1, by rw [Function.iterate_succ_apply, h]⟩

/-- Every run of the search is a run of the loop. -/
theorem exists_iterate_eq {least : Nat} {ns : List Node} {best found : Selection}
    (h : SearchRun least ns best found) :
    ∃ turns, (step least)^[turns] ⟨ns, best⟩ = ⟨[], found⟩ := by
  induction h with
  | stop => exact ⟨0, rfl⟩
  | dead hdead _ ih => exact exists_iterate_of_step (by simpa [step, hdead] using ih)
  | solved hdead hordered _ ih =>
    exact exists_iterate_of_step (by simpa [step, hdead, hordered] using ih)
  | pruned hdead hordered hpruned _ ih =>
    exact exists_iterate_of_step (by simpa [step, hdead, hordered, hpruned] using ih)
  | branched hdead hordered hpruned _ ih =>
    exact exists_iterate_of_step (by simpa [step, hdead, hordered, hpruned] using ih)

/-- The loop ends with the answer of the search. -/
theorem exists_after_eq {all : Selection} {clauses : List Clause} (h : IsProblem all clauses) :
    ∃ turns, after all clauses turns = ⟨[], solve all clauses⟩ :=
  exists_iterate_eq ((searchRun_root_iff h).2 rfl)

/-- What holds between any two turns: all nodes that wait come from the root, and the best selection
is the first one or was selected at such a node. -/
structure From (root : Node) (first : Selection) (l : Loop) : Prop where
  waiting : ∀ n ∈ l.waiting, root.Below n
  best : l.best = first ∨ ∃ n, root.Below n ∧ l.best = n.selected

theorem From.step {root : Node} {first : Selection} {l : Loop} (h : l.From root first)
    (least : Nat) : (l.step least).From root first := by
  obtain ⟨waiting, best⟩ := l
  cases waiting with
  | nil => exact h
  | cons n ns =>
    obtain ⟨hn, hns⟩ := List.forall_mem_cons.1 h.waiting
    rw [Loop.step]
    dsimp only
    split
    · exact ⟨hns, h.best⟩
    · split
      · refine ⟨hns, ?_⟩
        dsimp only
        rw [improve]
        split
        · exact .inr ⟨n, hn, rfl⟩
        · exact h.best
      · next branch others hordered =>
        split
        · exact ⟨hns, h.best⟩
        · have hbranch : branch ∈ n.clauses := by
            rw [← Node.mem_ordered, hordered]
            exact List.mem_cons_self
          refine ⟨List.forall_mem_append.2 ⟨fun child hchild => ?_, hns⟩, h.best⟩
          exact .branch hn hbranch (Node.branches_of_child hchild)

theorem from_after (all : Selection) (clauses : List Clause) (turns : Nat) :
    (after all clauses turns).From (root all clauses) (greedy all clauses) := by
  induction turns with
  | zero => exact ⟨by simp [after, Node.Below.self], .inl rfl⟩
  | succ turns ih =>
    rw [after, Function.iterate_succ_apply']
    exact ih.step _

end Loop

/-! ### Candidates and clauses -/

theorem leastLiterals_le_of_bounded {all : Selection} {most : Nat}
    (h : ∀ c ∈ all, c.term.length ≤ most) : leastLiterals all ≤ most := by
  cases all with
  | nil => exact Nat.zero_le most
  | cons c all => exact (leastLiterals_le List.mem_cons_self).trans (h c List.mem_cons_self)

namespace Node

theorem length_selected_of_branches {n child : Node} {branch : Clause}
    (h : Branches n branch child) : child.selected.length = n.selected.length + 1 := by
  induction h with
  | select n c cs => simp [select]
  | exclude _ ih => simpa [exclude] using ih

/-- What was selected has closed as many clauses. -/
theorem Below.length_selected_add_le {least : Nat} {root n : Node} (h : root.Below n)
    (hroot : root.WellFormed least) :
    n.selected.length + n.clauses.length ≤ root.selected.length + root.clauses.length := by
  induction h with
  | self => exact Nat.le_refl _
  | branch hn hbranch hchild ih =>
    have hselected := length_selected_of_branches hchild
    have hclosed := (wellFormed_of_branches (hn.wellFormed hroot) hbranch hchild).2
    omega

/-- At a node of a search for some clauses over all candidates `all`, places are those of
candidates, what was selected and the disjoint clauses are together no more than the clauses, and
the literals of both fit a word. This holds in whatever order the open clauses are gone through, in
particular for the number of candidates that are needed. -/
structure FitsWords (all : Selection) (clauses : List Clause) (n : Node) : Prop where
  selected_subset : n.selected ⊆ all
  free_subset : n.free ⊆ all
  clause_subset : ∀ clause ∈ n.clauses, clause ⊆ all
  length_le : ∀ order, order.Perm n.clauses →
    n.selected.length + disjointCount [] order ≤ clauses.length
  literals_lt : ∀ order, order.Perm n.clauses →
    n.selected.literals + disjointCount [] order * leastLiterals all < 2 ^ Domain.width

end Node

/-- The counts of a search for some clauses over all candidates `all` fit: at every node that may be
made, and so at those that wait, and of every best selection until the answer is found. -/
structure FitsWords (all : Selection) (clauses : List Clause) : Prop where
  node : ∀ n, (root all clauses).Below n → n.FitsWords all clauses
  waiting : ∀ turns, ∀ n ∈ (Loop.after all clauses turns).waiting, (root all clauses).Below n
  best : ∀ turns, (Loop.after all clauses turns).best ⊆ all ∧
    (Loop.after all clauses turns).best.length ≤ clauses.length ∧
    (Loop.after all clauses turns).best.literals < 2 ^ Domain.width
  answer : ∃ turns, Loop.after all clauses turns = ⟨[], solve all clauses⟩

section

variable {all : Selection} {clauses : List Clause} (h : IsProblem all clauses)
include h

theorem Node.Below.subset {n : Node} (hn : (root all clauses).Below n) :
    n.selected ⊆ all ∧ n.free ⊆ all := by
  obtain ⟨selected, excluded, rfl, -, hselected⟩ := hn.exists_stateOf h
  exact ⟨hselected, fun c hc => (mem_free_stateOf.1 hc).1⟩

variable {most : Nat} (hmost : ∀ c ∈ all, c.term.length ≤ most)
  (hwords : clauses.length * most < 2 ^ Domain.width)
include hmost hwords

theorem Node.Below.fitsWords {n : Node} (hn : (root all clauses).Below n) :
    n.FitsWords all clauses := by
  obtain ⟨hselected, hfree⟩ := hn.subset h
  have hlength : ∀ order : List Clause, order.Perm n.clauses →
      n.selected.length + disjointCount [] order ≤ clauses.length := by
    intro order horder
    have hclosed : n.selected.length + n.clauses.length ≤ clauses.length := by
      simpa [root, Node.of_root] using hn.length_selected_add_le (wellFormed_root h)
    have hcount := disjointCount_le_length [] order
    rw [horder.length_eq] at hcount
    omega
  refine ⟨hselected, hfree, fun clause hclause => ?_, hlength, fun order horder => ?_⟩
  · exact List.Subset.trans ((hn.wellFormed (wellFormed_root h)).clause_subset clause hclause) hfree
  · calc n.selected.literals + disjointCount [] order * leastLiterals all
        ≤ n.selected.length * most + disjointCount [] order * most :=
          Nat.add_le_add (Selection.literals_le_length_mul fun c hc => hmost c (hselected hc))
            (Nat.mul_le_mul_left _ (leastLiterals_le_of_bounded hmost))
      _ = (n.selected.length + disjointCount [] order) * most := (Nat.add_mul _ _ _).symm
      _ ≤ clauses.length * most := Nat.mul_le_mul_right _ (hlength order horder)
      _ < 2 ^ Domain.width := hwords

/-- The counts of a search fit if the product of the bounds on clauses and literals does. -/
theorem fitsWords_of_bounded : FitsWords all clauses := by
  have hnode : ∀ n, (root all clauses).Below n → n.FitsWords all clauses :=
    fun n hn => hn.fitsWords h hmost hwords
  refine ⟨hnode, fun turns => (Loop.from_after all clauses turns).waiting, fun turns => ?_,
    Loop.exists_after_eq h⟩
  have hbest : (Loop.after all clauses turns).best ⊆ all ∧
      (Loop.after all clauses turns).best.length ≤ clauses.length := by
    rcases (Loop.from_after all clauses turns).best with heq | ⟨n, hn, heq⟩
    · rw [heq]
      exact ⟨fun c hc => (mem_of_mem_greedy hc).1, length_greedyRounds_le all _ clauses⟩
    · rw [heq]
      have hlength := (hnode n hn).length_le n.clauses (List.Perm.refl _)
      exact ⟨(hnode n hn).selected_subset, by omega⟩
  obtain ⟨hsubset, hlength⟩ := hbest
  refine ⟨hsubset, hlength, ?_⟩
  calc (Loop.after all clauses turns).best.literals
      ≤ (Loop.after all clauses turns).best.length * most :=
        Selection.literals_le_length_mul fun c hc => hmost c (hsubset hc)
    _ ≤ clauses.length * most := Nat.mul_le_mul_right _ hlength
    _ < 2 ^ Domain.width := hwords

end

end CoverSearch

end RulePaths
