import RulePaths.Proofs.Cover.Search

/-!
# What pruning leaves out

A state of the search is known from its clauses, from what was selected and from what was given up.
The completions of a state are the sets of other candidates that solve the clauses together with
what was selected. If the bounds prune a state, none of these sets makes it cheaper than the best
selection so far. This holds in any state, whether a search gets there or not, and for clauses in
any order, so that it does not matter how clauses of equal length are ordered. The states that a
search gets to are of this kind.

## Main definitions

- `stateOf` — the node of what was selected and what was given up
- `Node.Below` — what branching makes of a node, on any open clauses and whatever is pruned

## Main results

- `completes_stateOf_iff` — the completions of a state
- `Node.Below.exists_stateOf` — the nodes that a search gets to are states
- `pruned_not_cheaper` — pruning leaves out nothing cheaper
-/

namespace RulePaths

namespace CoverSearch

open Std Selection

/-- The node of a search for some clauses over all candidates `all` in which some candidates were
selected and others given up. -/
def stateOf (all : Selection) (clauses : List Clause) (selected excluded : Selection) : Node :=
  Node.of (all.mergeSort fun a b => (Candidate.compareByTerm a b).isLE) clauses selected excluded

section

variable {all : Selection} {clauses : List Clause} {selected excluded : Selection}

theorem mem_free_stateOf {c : Candidate} :
    c ∈ (stateOf all clauses selected excluded).free ↔
      c ∈ all ∧ c ∉ selected ∧ c ∉ excluded := by
  rw [stateOf, Node.of, List.mem_filter, List.mem_mergeSort]
  simp

theorem mem_clauses_stateOf {clause : Clause} :
    clause ∈ (stateOf all clauses selected excluded).clauses ↔
      ∃ whole ∈ clauses, (∀ c ∈ whole, c ∉ selected) ∧
        clause = whole.filter fun c => !excluded.contains c := by
  rw [stateOf, Node.of, List.mem_map]
  constructor
  · rintro ⟨whole, hwhole, rfl⟩
    obtain ⟨hwhole, hopen⟩ := List.mem_filter.1 hwhole
    exact ⟨whole, hwhole, by simpa using hopen, rfl⟩
  · rintro ⟨whole, hwhole, hopen, rfl⟩
    exact ⟨whole, List.mem_filter.2 ⟨hwhole, by simpa using hopen⟩, rfl⟩

/-- The free candidates of a state are in the order of all candidates. -/
theorem ranked_stateOf (all : Selection) (clauses : List Clause) (selected excluded : Selection) :
    (stateOf all clauses selected excluded).Ranked (leastLiterals all) where
  free_ascending := (pairwise_byTerm all).sublist (List.filter_sublist.map _)
  least_le _ hc := leastLiterals_le (mem_free_stateOf.1 hc).1

/-- The completions of a state are the sets of other candidates that solve the clauses together with
the selected ones. -/
theorem completes_stateOf_iff {t : Selection} :
    (stateOf all clauses selected excluded).Completes t ↔
      t.Nodup ∧ (∀ c ∈ t, c ∈ all ∧ c ∉ selected ∧ c ∉ excluded) ∧
        Selection.Solves (selected ++ t) clauses := by
  constructor
  · rintro ⟨hnodup, hsubset, hsolves⟩
    refine ⟨hnodup, fun c hc => mem_free_stateOf.1 (hsubset hc), fun whole hwhole => ?_⟩
    by_cases hopen : ∀ c ∈ whole, c ∉ selected
    · obtain ⟨c, hc, hct⟩ := hsolves _ (mem_clauses_stateOf.2 ⟨whole, hwhole, hopen, rfl⟩)
      exact ⟨c, List.mem_of_mem_filter hc, List.mem_append_right _ hct⟩
    · push Not at hopen
      obtain ⟨c, hc, hselected⟩ := hopen
      exact ⟨c, hc, List.mem_append_left _ hselected⟩
  · rintro ⟨hnodup, hfree, hsolves⟩
    refine ⟨hnodup, fun c hc => mem_free_stateOf.2 (hfree c hc), fun clause hclause => ?_⟩
    obtain ⟨whole, hwhole, hopen, rfl⟩ := mem_clauses_stateOf.1 hclause
    obtain ⟨c, hc, hmem⟩ := hsolves whole hwhole
    rcases List.mem_append.1 hmem with hselected | hct
    · exact absurd hselected (hopen c hc)
    · exact ⟨c, List.mem_filter.2 ⟨hc, by simpa using (hfree c hct).2.2⟩, hct⟩

/-! ### The states of a search -/

theorem not_contains_cons (c d : Candidate) (s : Selection) :
    (!(c :: s).contains d) = (!s.contains d && d != c) := by
  rw [List.contains_cons, Bool.not_or, Bool.and_comm]
  rfl

theorem filter_filter_ne {p q : Candidate → Bool} {c : Candidate} (h : ∀ d, q d = (p d && d != c))
    (l : Selection) : (l.filter p).filter (· != c) = l.filter q := by
  rw [List.filter_filter]
  exact List.filter_congr fun d _ => by rw [h, Bool.and_comm]

theorem select_stateOf {c : Candidate} (hc : c ∉ excluded) :
    (stateOf all clauses selected excluded).select c =
      stateOf all clauses (c :: selected) excluded := by
  have hclauses : without c ((clauses.filter fun clause => !clause.any selected.contains).map
        fun clause => clause.filter fun c => !excluded.contains c) =
      (clauses.filter fun clause => !clause.any (c :: selected).contains).map
        fun clause => clause.filter fun c => !excluded.contains c := by
    rw [without, List.filter_map, List.filter_filter]
    refine congrArg _ (List.filter_congr fun clause _ => ?_)
    rw [Bool.eq_iff_iff]
    simp only [Function.comp, List.contains_eq_mem, Bool.and_eq_true, Bool.not_eq_true',
      decide_eq_false_iff_not, List.mem_filter, List.any_eq_false, decide_eq_true_eq,
      List.mem_cons, not_or, hc, not_false_eq_true, and_true]
    grind
  rw [stateOf, stateOf, Node.of, Node.of, Node.select, hclauses]
  congr 1
  exact filter_filter_ne (fun d => by rw [not_contains_cons, Bool.and_right_comm]) _

theorem exclude_stateOf {c : Candidate} :
    (stateOf all clauses selected excluded).exclude c =
      stateOf all clauses selected (c :: excluded) := by
  rw [stateOf, stateOf, Node.of, Node.of, Node.exclude, List.map_map]
  congr 1
  · refine List.map_congr_left fun clause _ => ?_
    exact filter_filter_ne (fun d => not_contains_cons c d excluded) clause
  · exact filter_filter_ne (fun d => by rw [not_contains_cons, Bool.and_assoc]) _

end

namespace Node

/-- The nodes that branching makes of a node, on any open clauses and whatever is pruned. -/
inductive Below (root : Node) : Node → Prop where
  | self : Below root root
  | branch {n child : Node} {branch : Clause} (hn : Below root n) (hbranch : branch ∈ n.clauses)
      (hchild : Branches n branch child) : Below root child

theorem Below.wellFormed {least : Nat} {root n : Node} (h : root.Below n)
    (hroot : root.WellFormed least) : n.WellFormed least := by
  induction h with
  | self => exact hroot
  | branch _ hbranch hchild ih => exact (wellFormed_of_branches ih hbranch hchild).1

end Node

section

variable {all : Selection} {clauses : List Clause} {selected excluded : Selection}

/-- Branching in a state leads to states. -/
theorem exists_stateOf_of_branches {n child : Node} {branch : Clause} {least : Nat}
    (hn : n.WellFormed least) (hbranch : branch ∈ n.clauses)
    (hchild : Node.Branches n branch child) {selected excluded : Selection}
    (hstate : n = stateOf all clauses selected excluded) :
    ∃ c ∈ all, c ∉ selected ∧ ∃ excluded',
      child = stateOf all clauses (c :: selected) excluded' := by
  induction hchild generalizing excluded with
  | select n c cs =>
    subst hstate
    have hc := mem_free_stateOf.1 (hn.clause_subset _ hbranch List.mem_cons_self)
    exact ⟨c, hc.1, hc.2.1, excluded, select_stateOf hc.2.2⟩
  | @exclude n m c cs _ ih =>
    exact ih (hn.exclude c) (Node.mem_clauses_exclude hn hbranch)
      (hstate ▸ exclude_stateOf)

/-- The nodes that a search gets to are states, in which candidates were selected once each. -/
theorem Node.Below.exists_stateOf (h : IsProblem all clauses) {n : Node}
    (hn : (root all clauses).Below n) :
    ∃ selected excluded, n = stateOf all clauses selected excluded ∧ selected.Nodup ∧
      selected ⊆ all := by
  induction hn with
  | self => exact ⟨[], [], rfl, List.nodup_nil, List.nil_subset all⟩
  | branch hn hbranch hchild ih =>
    obtain ⟨selected, excluded, hstate, hnodup, hsubset⟩ := ih
    obtain ⟨c, hc, hnot, excluded', hchild⟩ :=
      exists_stateOf_of_branches (hn.wellFormed (wellFormed_root h)) hbranch hchild hstate
    exact ⟨c :: selected, excluded', hchild, List.nodup_cons.2 ⟨hnot, hnodup⟩,
      List.cons_subset.2 ⟨hc, hsubset⟩⟩

end

/-! ### Pruned states -/

theorem compareCost_ne_lt {s t : Selection} (h : (compareCost t s).isLE) :
    compareCost s t ≠ .lt := by
  intro hlt
  rw [OrientedCmp.gt_of_lt hlt] at h
  cases h

/-- A search that comes to a pruned node goes on with the best selection so far. -/
theorem search_of_isPruned {n : Node} {least : Nat} {best : Selection} (hn : n.Ranked least)
    (hpruned : n.isPruned least best = true) (depth : Nat) : search least depth n best = best := by
  rw [search]
  split
  · rfl
  · split
    · next hordered =>
      -- without open clauses the node stands for what it has selected, which is not cheaper
      have hclauses : n.clauses = [] := by simpa [hordered] using n.ordered_perm.symm
      have hempty : n.Completes [] := ⟨List.nodup_nil, List.nil_subset _, by simp [hclauses, Solves]⟩
      have hle := Node.isLE_append_of_isPruned hn hpruned hempty
      rw [List.append_nil] at hle
      rw [improve, if_neg (by simpa using compareCost_ne_lt hle)]
    · rfl

/-- In any state of a search, for whatever clauses and best selection so far: if the bounds prune
the state, then the search goes on with the best selection, and no set of candidates that were
neither selected nor given up makes a cheaper solution with the selected ones. -/
theorem pruned_not_cheaper {all : Selection} {clauses : List Clause}
    {selected excluded best t : Selection}
    (hpruned : (stateOf all clauses selected excluded).isPruned (leastLiterals all) best = true)
    (hnodup : t.Nodup) (hfree : ∀ c ∈ t, c ∈ all ∧ c ∉ selected ∧ c ∉ excluded)
    (hsolves : Selection.Solves (selected ++ t) clauses) :
    (∀ depth, search (leastLiterals all) depth (stateOf all clauses selected excluded) best =
      best) ∧ compareCost (selected ++ t) best ≠ .lt := by
  have hranked := ranked_stateOf all clauses selected excluded
  have hcompletes := completes_stateOf_iff.2 ⟨hnodup, hfree, hsolves⟩
  exact ⟨search_of_isPruned hranked hpruned,
    compareCost_ne_lt (Node.isLE_append_of_isPruned hranked hpruned hcompletes)⟩

/-- After the cover by the first attribute was found and this candidate was given up, the cover by
the second one ties with it on size and literals, but comes later. -/
theorem pruned_not_cheaper_tie :
    let first : Candidate := { index := 0, implicant := ⟨1, 1⟩ }
    let second : Candidate := { index := 1, implicant := ⟨2, 2⟩ }
    let state := stateOf [first, second] [[first, second]] [] [first]
    state.isPruned (leastLiterals [first, second]) [first] = true ∧
      (∀ c ∈ [second], c ∈ [first, second] ∧ c ∉ [] ∧ c ∉ [first]) ∧
      Selection.Solves [second] [[first, second]] ∧ compareCost [second] [first] ≠ .lt := by
  intro first second state
  have hsorted : [first, second].mergeSort (fun a b => (Candidate.compareByTerm a b).isLE) =
      [first, second] := List.mergeSort_of_pairwise (by decide +kernel)
  have hstate : state = ⟨[[second]], [], [second]⟩ := by
    show stateOf [first, second] [[first, second]] [] [first] = _
    rw [stateOf, hsorted]
    decide +kernel
  have hneeded : state.needed = 1 := by
    simp [hstate, Node.needed, Node.ordered, Node.disjointCount]
  have hterms : ∀ c : Candidate, Selection.terms [c] = [c.term] := fun c => by
    simp [Selection.terms]
  have hlater : state.maySortBelow [first] = false := by
    rw [Node.maySortBelow, show state.lowest [first] = [second] by rw [hstate]; rfl, hterms, hterms]
    decide +kernel
  have hpruned : state.isPruned (leastLiterals [first, second]) [first] = true := by
    rw [Node.isPruned, hneeded, hlater, hstate]
    decide +kernel
  have hfree : ∀ c ∈ [second], c ∈ [first, second] ∧ c ∉ [] ∧ c ∉ [first] := by decide +kernel
  have hsolves : Selection.Solves [second] [[first, second]] := by
    unfold Selection.Solves
    decide +kernel
  exact ⟨hpruned, hfree, hsolves,
    (pruned_not_cheaper hpruned (List.nodup_singleton second) hfree hsolves).2⟩

end CoverSearch

end RulePaths
