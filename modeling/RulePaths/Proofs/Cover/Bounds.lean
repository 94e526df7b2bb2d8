import RulePaths.Proofs.Cover.Selections

/-!
# The bounds of a search node

What may still be added at a node is a set of its free candidates that solves its open clauses,
a completion. This module shows that both bounds of a node hold of every completion: the open
clauses that share no candidate each take one of their own, and no selection of a given size
has lower terms than the one filled up with the lowest free candidates. Hence a node that the
bounds prune has nothing below it that is cheaper than the best selection so far.

## Main definitions

- `Node.Completes` — a set of free candidates that solves the open clauses of a node
- `Node.Reaches` — a selection consists of the selected candidates and a completion
- `Node.Ranked` — free candidates ascend by term and have a least number of literals
- `Node.WellFormed` — besides, clauses offer free candidates only

## Main results

- `Node.needed_le_length` — every completion has at least as many candidates as are needed
- `Node.isLE_of_isPruned` — a pruned node reaches nothing cheaper than the best selection
-/

namespace RulePaths

namespace CoverSearch

namespace Node

open Std Selection

/-- A set of free candidates that solves the open clauses. -/
structure Completes (n : Node) (t : Selection) : Prop where
  nodup : t.Nodup
  subset : t ⊆ n.free
  solves : t.Solves n.clauses

/-- A selection is below a node if it consists of the selected candidates and a completion. -/
def Reaches (n : Node) (s : Selection) : Prop :=
  ∃ t, n.Completes t ∧ s.Perm (n.selected ++ t)

/-- What the bounds rely on: free candidates ascend by term, and none of them has fewer than
    `least` literals. -/
structure Ranked (least : Nat) (n : Node) : Prop where
  free_ascending : (n.free.map Candidate.term).Pairwise fun a b => (compare a b).isLE
  least_le : ∀ c ∈ n.free, least ≤ c.term.length

/-- The invariant of the nodes of a search where no free candidate has fewer than `least`
    literals. -/
structure WellFormed (least : Nat) (n : Node) : Prop extends n.Ranked least where
  clause_nodup : ∀ clause ∈ n.clauses, clause.Nodup
  clause_subset : ∀ clause ∈ n.clauses, clause ⊆ n.free

theorem Completes.perm {n : Node} {t t' : Selection} (h : n.Completes t) (hperm : t.Perm t') :
    n.Completes t' where
  nodup := hperm.nodup_iff.1 h.nodup
  subset := fun _ hc => h.subset (hperm.symm.subset hc)
  solves := h.solves.mono hperm.subset

theorem Completes.subperm {n : Node} {t : Selection} (h : n.Completes t) : t.Subperm n.free :=
  h.nodup.subperm h.subset

theorem not_completes_of_isDead {n : Node} (h : n.isDead = true) (t : Selection) :
    ¬ n.Completes t := by
  intro ht
  obtain ⟨clause, hclause, hempty⟩ := List.any_eq_true.1 h
  obtain ⟨c, hc, _⟩ := ht.solves clause hclause
  rw [List.isEmpty_iff.1 hempty] at hc
  simp at hc

/-! ### The bound on the number of candidates -/

theorem ordered_perm (n : Node) : n.ordered.Perm n.clauses :=
  List.mergeSort_perm _ _

theorem mem_ordered {n : Node} {clause : Clause} :
    clause ∈ n.ordered ↔ clause ∈ n.clauses :=
  n.ordered_perm.mem_iff

/-- Clauses that share no candidate are solved by different candidates, none of which has been
    used before. -/
theorem disjointCount_le (used t : Selection) {clauses : List Clause}
    (h : t.Solves clauses) :
    disjointCount used clauses ≤ (t.filter fun c => !used.contains c).length := by
  induction clauses generalizing used with
  | nil => simp [disjointCount]
  | cons clause rest ih =>
    have hrest : t.Solves rest := fun d hd => h d (List.mem_cons_of_mem _ hd)
    rw [disjointCount]
    split
    · exact ih used hrest
    · next hfresh =>
      obtain ⟨c, hc, hct⟩ := h clause (List.mem_cons_self ..)
      have hcused : c ∉ used := by
        intro hcu
        exact hfresh (List.any_eq_true.2 ⟨c, hc, by simpa using hcu⟩)
      have hbound := ih (clause ++ used) hrest
      -- the candidate `c` of this clause is counted here but not among the later ones
      have hlt : (t.filter fun c => !(clause ++ used).contains c).length <
          (t.filter fun c => !used.contains c).length := by
        have hsplit : (t.filter fun c => !(clause ++ used).contains c) =
            (t.filter fun c => !used.contains c).filter fun c => !clause.contains c := by
          rw [List.filter_filter]
          apply List.filter_congr
          intro d _
          simp
        rw [hsplit, List.length_filter_lt_length_iff_exists]
        exact ⟨c, List.mem_filter.2 ⟨hct, by simpa using hcused⟩, by simpa using hc⟩
      omega

theorem disjointCount_le_length (used : Selection) (clauses : List Clause) :
    disjointCount used clauses ≤ clauses.length := by
  induction clauses generalizing used with
  | nil => simp [disjointCount]
  | cons clause rest ih =>
    rw [disjointCount, List.length_cons]
    split
    · exact (ih used).trans (Nat.le_succ _)
    · exact Nat.succ_le_succ (ih _)

theorem needed_le_length {n : Node} {t : Selection} (h : n.Completes t) :
    n.needed ≤ t.length := by
  have hordered : t.Solves n.ordered := fun clause hclause =>
    h.solves clause (mem_ordered.1 hclause)
  have hbound := disjointCount_le [] t hordered
  exact hbound.trans (List.length_filter_le _ _)

/-- Every completion has at least the literals of as many smallest terms as are needed. -/
theorem needed_mul_le_literals {least : Nat} {n : Node} {t : Selection}
    (hn : n.Ranked least) (h : n.Completes t) : n.needed * least ≤ t.literals :=
  (Nat.mul_le_mul_right least (needed_le_length h)).trans
    (length_mul_le_literals fun c hc => hn.least_le c (h.subset hc))

/-! ### The bound on the terms -/

/-- Filled up to the size of a completion with the lowest free candidates, the selected ones
    have the lowest terms. -/
theorem isLE_terms_lowest {least : Nat} {n : Node} {best t : Selection}
    (hn : n.Ranked least) (h : n.Completes t)
    (hlength : best.length = n.selected.length + t.length) :
    (compare (n.lowest best).terms (n.selected ++ t).terms).isLE := by
  have hfill : best.length - n.selected.length = (t.map Candidate.term).length := by
    rw [List.length_map]
    omega
  obtain ⟨t', hperm, hsub⟩ := h.subperm
  rw [lowest, hfill, terms_eq_ascending, terms_eq_ascending, List.map_append, List.map_append,
    List.map_take]
  exact isLE_ascending_append_take hn.free_ascending
    ⟨t'.map Candidate.term, hperm.map _, hsub.map _⟩

/-! ### Pruning -/

/-- A pruned node has no completion that is cheaper than the best selection so far. -/
theorem isLE_append_of_isPruned {least : Nat} {n : Node} {best t : Selection}
    (hn : n.Ranked least) (hpruned : n.isPruned least best = true) (h : n.Completes t) :
    (compareCost best (n.selected ++ t)).isLE := by
  have hsize := needed_le_length h
  have hliterals := needed_mul_le_literals hn h
  rw [isLE_compareCost_iff, List.length_append, literals_append]
  unfold isPruned at hpruned
  dsimp only at hpruned
  split at hpruned
  · next hgt =>
    -- one of the two lower bounds is above what the best selection has
    rcases Ordering.then_eq_gt.1 hgt with hgt | ⟨heq, hgt⟩
    · rw [Nat.compare_eq_gt] at hgt
      left
      omega
    · rw [Nat.compare_eq_eq] at heq
      rw [Nat.compare_eq_gt] at hgt
      omega
  · next heq =>
    -- both bounds are met, so only a tie that the terms decide could be cheaper
    obtain ⟨hsizeEq, hliteralsEq⟩ := Ordering.then_eq_eq.1 heq
    rw [Nat.compare_eq_eq] at hsizeEq hliteralsEq
    by_cases hlength : best.length = n.selected.length + t.length
    · right
      refine ⟨hlength, ?_⟩
      by_cases hlits : best.literals = n.selected.literals + t.literals
      · right
        refine ⟨hlits, ?_⟩
        have hlowest : (compare best.terms (n.lowest best).terms).isLE := by
          have hnot : ¬ n.maySortBelow best = true := by simpa using hpruned
          by_contra hlt
          exact hnot (by simp [maySortBelow, OrientedCmp.lt_of_not_isLE hlt])
        exact TransOrd.isLE_trans hlowest (isLE_terms_lowest hn h hlength)
      · left
        omega
    · left
      omega
  · simp at hpruned

theorem isLE_of_isPruned {least : Nat} {n : Node} {best s : Selection}
    (hn : n.Ranked least) (hpruned : n.isPruned least best = true) (h : n.Reaches s) :
    (compareCost best s).isLE := by
  obtain ⟨t, ht, hperm⟩ := h
  rw [compareCost_congr_right hperm]
  exact isLE_append_of_isPruned hn hpruned ht

end Node

end CoverSearch

end RulePaths
