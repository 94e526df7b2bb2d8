import RulePaths.Proofs.Cover.MinimalCover

/-!
# Covering as far as possible

A row that no candidate covers has an empty clause. No candidate is alone in it, and it makes the
root of the search a dead node, so the search leaves the greedy selection as it is. Greedy choices
are made until no open clause has a candidate: each of them closes a clause, and the empty ones do
not stand in the way. Therefore all rows that can be covered are covered in any case.

The functions that choose and search count their rounds. Their loops can also be told without a
count, as runs that end by themselves. There is one run for each list of candidates and rows, and
its answer is that of the functions.

## Main definitions

- `CoverSearch.GreedyRun`, `CoverSearch.SearchRun` — the two loops without a count
- `MinimalCover.Run` — how a cover is found by them

## Main results

- `CoverSearch.greedyRun_iff`, `CoverSearch.searchRun_search` — the loops end, with the answers of
  the functions
- `minimalCover_covers_coverable` — the cover of arbitrary rows
-/

namespace RulePaths

namespace CoverSearch

/-! ### The greedy loop -/

/-- A run of the greedy loop from some open clauses, with the candidates that it takes. -/
inductive GreedyRun (all : Selection) : List Clause → Selection → Prop where
  /-- No open clause has a candidate. -/
  | stop {clauses : List Clause} (hpick : pick? all clauses = none) : GreedyRun all clauses []
  /-- The best choice is taken, and the clauses that it leaves are open. -/
  | pick {clauses : List Clause} {c : Candidate} {s : Selection}
      (hpick : pick? all clauses = some c) (hrest : GreedyRun all (without c clauses) s) :
      GreedyRun all clauses (c :: s)

theorem pick?_nil (all : Selection) : pick? all [] = none := by
  cases hpick : pick? all [] with
  | none => rfl
  | some c =>
    obtain ⟨_, clause, hclause, _⟩ := mem_of_pick?_eq_some hpick
    exact absurd hclause List.not_mem_nil

theorem length_without_lt_of_pick? {all : Selection} {clauses : List Clause} {c : Candidate}
    (hpick : pick? all clauses = some c) : (without c clauses).length < clauses.length := by
  obtain ⟨_, clause, hclause, hc⟩ := mem_of_pick?_eq_some hpick
  exact length_without_lt hclause hc

/-- As many rounds as there are clauses are enough for the loop to end. -/
theorem greedyRun_greedyRounds {all : Selection} {rounds : Nat} {clauses : List Clause}
    (hrounds : clauses.length ≤ rounds) :
    GreedyRun all clauses (greedyRounds all rounds clauses) := by
  induction rounds generalizing clauses with
  | zero =>
    obtain rfl : clauses = [] := List.length_eq_zero_iff.1 (Nat.le_zero.1 hrounds)
    exact .stop (pick?_nil all)
  | succ rounds ih =>
    rw [greedyRounds]
    cases hpick : pick? all clauses with
    | none => exact .stop hpick
    | some c =>
      have hlt := length_without_lt_of_pick? hpick
      exact .pick hpick (ih (by omega))

theorem GreedyRun.unique {all s t : Selection} {clauses : List Clause}
    (hs : GreedyRun all clauses s) (ht : GreedyRun all clauses t) : s = t := by
  induction hs generalizing t with
  | stop hpick =>
    cases ht with
    | stop => rfl
    | pick hpick' => cases hpick.symm.trans hpick'
  | pick hpick _ ih =>
    cases ht with
    | stop hpick' => cases hpick.symm.trans hpick'
    | pick hpick' hrest' =>
      obtain rfl := Option.some_inj.1 (hpick.symm.trans hpick')
      rw [ih hrest']

/-- The greedy loop ends, whatever the clauses, and takes the greedy selection. -/
theorem greedyRun_iff {all s : Selection} {clauses : List Clause} :
    GreedyRun all clauses s ↔ s = greedy all clauses := by
  have hgreedy : GreedyRun all clauses (greedy all clauses) :=
    greedyRun_greedyRounds (Nat.le_refl _)
  exact ⟨fun hs => hs.unique hgreedy, fun hs => hs ▸ hgreedy⟩

/-! ### The search -/

/-- A run of the search through nodes that wait for their turn, from the best selection so far to
the best one in the end. -/
inductive SearchRun (least : Nat) : List Node → Selection → Selection → Prop where
  /-- No node is waiting. -/
  | stop {best : Selection} : SearchRun least [] best best
  /-- Some open clause of the node has lost all its candidates. -/
  | dead {n : Node} {ns : List Node} {best found : Selection} (hdead : n.isDead = true)
      (hrest : SearchRun least ns best found) : SearchRun least (n :: ns) best found
  /-- The node has no open clause, so its selection is compared with the best one. -/
  | solved {n : Node} {ns : List Node} {best found : Selection} (hdead : n.isDead = false)
      (hordered : n.ordered = []) (hrest : SearchRun least ns (improve n.selected best) found) :
      SearchRun least (n :: ns) best found
  /-- The bounds show that nothing below the node is cheaper than the best selection. -/
  | pruned {n : Node} {ns : List Node} {best found : Selection} {branch : Clause}
      {others : List Clause} (hdead : n.isDead = false) (hordered : n.ordered = branch :: others)
      (hpruned : n.isPruned least best = true) (hrest : SearchRun least ns best found) :
      SearchRun least (n :: ns) best found
  /-- The node makes way for its children. -/
  | branched {n : Node} {ns : List Node} {best found : Selection} {branch : Clause}
      {others : List Clause} (hdead : n.isDead = false) (hordered : n.ordered = branch :: others)
      (hpruned : n.isPruned least best = false)
      (hrest : SearchRun least (n.children branch ++ ns) best found) :
      SearchRun least (n :: ns) best found

/-- Nodes that are searched one after the other take their turns before those that wait already. -/
theorem searchRun_foldl {least depth : Nat} {children ns : List Node} {best found : Selection}
    (hchildren : ∀ child ∈ children, ∀ ns best found,
      SearchRun least ns (search least depth child best) found →
        SearchRun least (child :: ns) best found)
    (hrest : SearchRun least ns
      (children.foldl (fun best child => search least depth child best) best) found) :
    SearchRun least (children ++ ns) best found := by
  induction children generalizing best with
  | nil => exact hrest
  | cons child children ih =>
    obtain ⟨hchild, hothers⟩ := List.forall_mem_cons.1 hchildren
    exact hchild _ _ _ (ih hothers hrest)

/-- The search at a node is a run through it and all below it. Every branch closes a clause, so
that the depth does not run out. -/
theorem searchRun_search {least depth : Nat} {n : Node} {ns : List Node} {best found : Selection}
    (hn : n.WellFormed least) (hdepth : n.clauses.length ≤ depth)
    (hrest : SearchRun least ns (search least depth n best) found) :
    SearchRun least (n :: ns) best found := by
  induction depth generalizing n ns best found with
  | zero =>
    have hclauses : n.clauses = [] := List.length_eq_zero_iff.1 (Nat.le_zero.1 hdepth)
    have hordered : n.ordered = [] := by
      simpa [hclauses] using n.ordered_perm
    have halive : n.isDead = false := by simp [Node.isDead, hclauses]
    simp only [search, halive, hordered] at hrest
    exact .solved halive hordered hrest
  | succ depth ih =>
    rw [search] at hrest
    cases hdead : n.isDead with
    | true =>
      rw [if_pos hdead] at hrest
      exact .dead hdead hrest
    | false =>
      rw [if_neg (by simp [hdead])] at hrest
      cases hordered : n.ordered with
      | nil =>
        rw [hordered] at hrest
        exact .solved hdead hordered hrest
      | cons branch others =>
        have hbranch : branch ∈ n.clauses := by
          rw [← Node.mem_ordered, hordered]
          exact List.mem_cons_self ..
        rw [hordered] at hrest
        dsimp only at hrest
        cases hpruned : n.isPruned least best with
        | true =>
          rw [if_pos hpruned] at hrest
          exact .pruned hdead hordered hpruned hrest
        | false =>
          rw [if_neg (by simp [hpruned])] at hrest
          refine .branched hdead hordered hpruned ?_
          have hchildren : ∀ child ∈ n.children branch,
              child.WellFormed least ∧ child.clauses.length ≤ depth := by
            intro child hchild
            obtain ⟨hwf, hlt⟩ := Node.wellFormed_of_child hn hbranch hchild
            exact ⟨hwf, by omega⟩
          exact searchRun_foldl (fun child hchild _ _ _ =>
            ih (hchildren child hchild).1 (hchildren child hchild).2) hrest

theorem SearchRun.unique {least : Nat} {ns : List Node} {best s t : Selection}
    (hs : SearchRun least ns best s) (ht : SearchRun least ns best t) : s = t := by
  induction hs generalizing t with
  | stop =>
    cases ht
    rfl
  | dead hdead _ ih =>
    cases ht with
    | dead _ hrest' => exact ih hrest'
    | solved hdead' | pruned hdead' | branched hdead' => cases hdead.symm.trans hdead'
  | solved hdead hordered _ ih =>
    cases ht with
    | dead hdead' => cases hdead.symm.trans hdead'
    | solved _ _ hrest' => exact ih hrest'
    | pruned _ hordered' | branched _ hordered' => cases hordered.symm.trans hordered'
  | pruned hdead hordered hpruned _ ih =>
    cases ht with
    | dead hdead' => cases hdead.symm.trans hdead'
    | solved _ hordered' => cases hordered.symm.trans hordered'
    | pruned _ _ _ hrest' => exact ih hrest'
    | branched _ _ hpruned' => cases hpruned.symm.trans hpruned'
  | branched hdead hordered hpruned _ ih =>
    cases ht with
    | dead hdead' => cases hdead.symm.trans hdead'
    | solved _ hordered' => cases hordered.symm.trans hordered'
    | pruned _ _ hpruned' => cases hpruned.symm.trans hpruned'
    | branched _ hordered' _ hrest' =>
      obtain ⟨rfl, _⟩ := List.cons_eq_cons.1 (hordered.symm.trans hordered')
      exact ih hrest'

/-- The search from the root ends, whatever the clauses, with the cheapest selection. -/
theorem searchRun_root_iff {all s : Selection} {clauses : List Clause}
    (h : IsProblem all clauses) :
    SearchRun (leastLiterals all) [root all clauses] (greedy all clauses) s ↔
      s = solve all clauses := by
  have hsolve : SearchRun (leastLiterals all) [root all clauses] (greedy all clauses)
      (solve all clauses) :=
    searchRun_search (wellFormed_root h) (length_clauses_root all clauses) .stop
  exact ⟨fun hs => hs.unique hsolve, fun hs => hs ▸ hsolve⟩

/-! ### What the answer covers -/

section

variable {all : Selection} {clauses : List Clause} (h : IsProblem all clauses)
include h

/-- The answer is the greedy selection, or else a solution, and then every clause offers a
candidate. -/
theorem solve_cases : solve all clauses = greedy all clauses ∨
    IsSolution all clauses (solve all clauses) ∧ ∀ clause ∈ clauses, clause ≠ [] := by
  refine (solve_cheapest h).origin.imp_right fun hsolution => ⟨hsolution, ?_⟩
  intro clause hclause
  obtain ⟨c, hc, _⟩ := hsolution.solves clause hclause
  exact List.ne_nil_of_mem hc

theorem nodup_solve : (solve all clauses).Nodup := by
  rcases solve_cases h with hgreedy | ⟨hsolution, _⟩
  · exact hgreedy ▸ nodup_greedy all clauses
  · exact hsolution.nodup

theorem solve_subset : solve all clauses ⊆ all := by
  rcases solve_cases h with hgreedy | ⟨hsolution, _⟩
  · exact hgreedy ▸ fun c hc => (mem_of_mem_greedy hc).1
  · exact hsolution.subset

/-- Every candidate of the answer belongs to some clause, also if not all clauses offer one. -/
theorem exists_clause_of_solve {c : Candidate} (hc : c ∈ solve all clauses) :
    ∃ clause ∈ clauses, c ∈ clause := by
  rcases solve_cases h with hgreedy | ⟨_, hoffer⟩
  · rw [hgreedy] at hc
    exact (mem_of_mem_greedy hc).2
  · exact exists_clause_of_mem_solve h hoffer hc

/-- Every clause that offers a candidate has one of the answer. -/
theorem solve_covers {clause : Clause} (hclause : clause ∈ clauses) (hne : clause ≠ []) :
    ∃ c ∈ clause, c ∈ solve all clauses := by
  rcases solve_cases h with hgreedy | ⟨hsolution, _⟩
  · rw [hgreedy]
    obtain ⟨c, hc⟩ := List.exists_mem_of_ne_nil clause hne
    exact greedy_covers hclause ⟨c, hc, h.clause_subset clause hclause hc⟩
  · exact hsolution.solves clause hclause

end

end CoverSearch

namespace MinimalCover

open CoverSearch

/-- How a cover is found: the essential candidates are taken, and the greedy loop and the search
run on what they leave. -/
structure Run (implicants : List Implicant) (rows : List Nat) (cover : List Implicant) : Prop where
  ends : let all := candidates implicants
    let clauses := rows.map (clauseOf all)
    let rest := remaining (essential all clauses) clauses
    ∃ seed found, GreedyRun all rest seed ∧
      SearchRun (leastLiterals all) [root all rest] seed found ∧
        cover = Implicant.sort ((essential all clauses ++ found).map Candidate.implicant)

theorem run_iff {implicants : List Implicant} {rows : List Nat} {cover : List Implicant} :
    Run implicants rows cover ↔ cover = minimalCover implicants rows := by
  let all := candidates implicants
  let clauses := rows.map (clauseOf all)
  have hrest : IsProblem all (remaining (essential all clauses) clauses) :=
    isProblem_remaining (isProblem_clauses (nodup_candidates implicants) rows)
  constructor
  · rintro ⟨seed, found, hseed, hfound, rfl⟩
    obtain rfl := greedyRun_iff.1 hseed
    obtain rfl := (searchRun_root_iff hrest).1 hfound
    rfl
  · rintro rfl
    exact ⟨_, _, greedyRun_iff.2 rfl, (searchRun_root_iff hrest).2 rfl, rfl⟩

/-! ### What the selection covers -/

section

variable {all : Selection} {clauses : List Clause} (h : IsProblem all clauses)
include h

/-- The essential candidates belong to no clause that they leave, so none is selected twice. -/
theorem nodup_selection : (selection all clauses).Nodup := by
  have hrest : IsProblem all (remaining (essential all clauses) clauses) := isProblem_remaining h
  refine (h.nodup.filter _).append (nodup_solve hrest) fun c hc hsolve => ?_
  obtain ⟨clause, hclause, hmem⟩ := exists_clause_of_solve hrest hsolve
  exact (mem_remaining.1 hclause).2 c hmem hc

theorem selection_subset : selection all clauses ⊆ all :=
  List.append_subset.2 ⟨fun _ hc => (mem_essential.1 hc).1, solve_subset (isProblem_remaining h)⟩

theorem exists_clause_of_mem_selection {c : Candidate} (hc : c ∈ selection all clauses) :
    ∃ clause ∈ clauses, c ∈ clause := by
  rcases List.mem_append.1 hc with hessential | hsolve
  · exact ⟨[c], (mem_essential.1 hessential).2, List.mem_singleton_self c⟩
  · obtain ⟨clause, hclause, hmem⟩ := exists_clause_of_solve (isProblem_remaining h) hsolve
    exact ⟨clause, (mem_remaining.1 hclause).1, hmem⟩

/-- A clause that offers a candidate has an essential one, or it is left and has one of the
answer. -/
theorem selection_covers {clause : Clause} (hclause : clause ∈ clauses) (hne : clause ≠ []) :
    ∃ c ∈ clause, c ∈ selection all clauses := by
  by_cases hopen : ∀ c ∈ clause, c ∉ essential all clauses
  · obtain ⟨c, hc, hsolve⟩ :=
      solve_covers (isProblem_remaining h) (mem_remaining.2 ⟨hclause, hopen⟩) hne
    exact ⟨c, hc, List.mem_append_right _ hsolve⟩
  · push Not at hopen
    obtain ⟨c, hc, hessential⟩ := hopen
    exact ⟨c, hc, List.mem_append_left _ hessential⟩

end

theorem mem_minimalCover {implicants : List Implicant} {rows : List Nat} {i : Implicant} :
    i ∈ minimalCover implicants rows ↔
      ∃ c ∈ selection (candidates implicants) (rows.map (clauseOf (candidates implicants))),
        c.implicant = i := by
  rw [minimalCover_eq_sort, (Implicant.sort_perm _).mem_iff, List.mem_map]

theorem minimalCover_subperm (implicants : List Implicant) (rows : List Nat) :
    (minimalCover implicants rows).Subperm implicants := by
  have hproblem := isProblem_clauses (nodup_candidates implicants) rows
  obtain ⟨s, hperm, hsub⟩ := (nodup_selection hproblem).subperm (selection_subset hproblem)
  have himplicants := hsub.map Candidate.implicant
  rw [map_implicant_candidates] at himplicants
  exact ⟨_, (hperm.map Candidate.implicant).trans (Implicant.sort_perm _).symm, himplicants⟩

theorem exists_covers_of_row {implicants : List Implicant} {rows : List Nat} {row : Nat}
    (hrow : row ∈ rows) (hcoverable : ∃ i ∈ implicants, i.covers row = true) :
    ∃ i ∈ minimalCover implicants rows, i.covers row = true := by
  have hproblem := isProblem_clauses (nodup_candidates implicants) rows
  have hne : clauseOf (candidates implicants) row ≠ [] := by
    obtain ⟨i, hi, hcovers⟩ := hcoverable
    rw [← map_implicant_candidates implicants] at hi
    obtain ⟨c, hc, rfl⟩ := List.mem_map.1 hi
    exact List.ne_nil_of_mem (mem_clauseOf.2 ⟨hc, hcovers⟩)
  obtain ⟨c, hc, hselected⟩ := selection_covers hproblem (List.mem_map_of_mem hrow) hne
  exact ⟨c.implicant, mem_minimalCover.2 ⟨c, hselected, rfl⟩, (mem_clauseOf.1 hc).2⟩

theorem exists_row_of_mem_minimalCover {implicants : List Implicant} {rows : List Nat}
    {i : Implicant} (hi : i ∈ minimalCover implicants rows) : ∃ row ∈ rows, i.covers row = true := by
  obtain ⟨c, hc, rfl⟩ := mem_minimalCover.1 hi
  obtain ⟨clause, hclause, hmem⟩ := exists_clause_of_mem_selection
    (isProblem_clauses (nodup_candidates implicants) rows) hc
  obtain ⟨row, hrow, rfl⟩ := List.mem_map.1 hclause
  exact ⟨row, hrow, (mem_clauseOf.1 hmem).2⟩

end MinimalCover

/-- Whatever the implicants and the rows, the loops end with the minimal cover. It is ascending,
is a sub-multiset of the implicants and covers every row that any of them covers, and each of its
implicants covers some row. -/
theorem minimalCover_covers_coverable (implicants : List Implicant) (rows : List Nat) :
    let cover := minimalCover implicants rows
    (∀ answer, MinimalCover.Run implicants rows answer ↔ answer = cover) ∧
    cover.Pairwise (fun i j => (compare i j).isLE) ∧
    cover.Subperm implicants ∧
    (∀ row ∈ rows, (∃ i ∈ implicants, i.covers row = true) → ∃ i ∈ cover, i.covers row = true) ∧
    ∀ i ∈ cover, ∃ row ∈ rows, i.covers row = true := by
  refine ⟨fun _ => MinimalCover.run_iff, MinimalCover.pairwise_minimalCover implicants rows,
    MinimalCover.minimalCover_subperm implicants rows, ?_, ?_⟩
  · exact fun row hrow => MinimalCover.exists_covers_of_row hrow
  · exact fun i hi => MinimalCover.exists_row_of_mem_minimalCover hi

/-- No implicant covers the first row. The one that covers the second is essential, and of the two
that cover the third the greedy choice takes the one with fewer literals. -/
example : minimalCover [⟨3, 3⟩, ⟨4, 4⟩, ⟨4, 7⟩] [8, 3, 4, 8] = [⟨3, 3⟩, ⟨4, 4⟩] := by
  cbv

end RulePaths
