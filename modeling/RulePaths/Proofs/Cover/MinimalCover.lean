import RulePaths.Formula.MinimalCover
import RulePaths.Proofs.Cover.Search
import RulePaths.Proofs.Formula.Implicants

/-!
# The minimal cover is a minimum

Every solution of a cover problem contains the essential candidates, and the search finds the
cheapest way to cover what they leave. Since a common part does not change how two selections
compare, both together are the cheapest of all solutions, also where only the sequence of terms
breaks a tie.

## Main definitions

- `Covers` — every row of a list is covered by some implicant of a list
- `Implicant.compareCost` — the comparison by which lists of implicants are judged

## Main results

- `MinimalCover.selection_isSolution` — the essential candidates and the answer of the search
  are a cheapest solution
- `minimalCover_isMinimum` — the minimal cover is the minimum over all sub-multisets of the
  candidates that cover the rows, and depends on neither order nor repeats of the rows
-/

namespace RulePaths

open Std

/-- Every row is covered by some implicant. -/
def Covers (implicants : List Implicant) (rows : List Nat) : Prop :=
  ∀ row ∈ rows, ∃ i ∈ implicants, i.covers row = true

instance (implicants : List Implicant) (rows : List Nat) : Decidable (Covers implicants rows) :=
  inferInstanceAs (Decidable (∀ row ∈ rows, ∃ i ∈ implicants, i.covers row = true))

theorem Covers.perm {is js : List Implicant} {rows : List Nat} (h : Covers is rows)
    (hperm : is.Perm js) : Covers js rows := by
  intro row hrow
  obtain ⟨i, hi, hcovers⟩ := h row hrow
  exact ⟨i, hperm.subset hi, hcovers⟩

namespace Implicant

/-- The comparison of lists of implicants by number, then by the total number of literals, then
    by the ascending sequence. -/
def compareCost (is js : List Implicant) : Ordering :=
  (compare is.length js.length).then
    ((compare (is.map literalCount).sum (js.map literalCount).sum).then
      (compare (sort is) (sort js)))

instance : TransCmp compareCost :=
  inferInstanceAs (TransCmp (compareLex (compareOn List.length)
    (compareLex (compareOn fun is => (is.map literalCount).sum) (compareOn sort))))

theorem sort_perm (is : List Implicant) : (sort is).Perm is :=
  ascending_perm is

theorem sort_of_pairwise {is : List Implicant}
    (h : is.Pairwise fun i j => (compare i j).isLE) : sort is = is :=
  ascending_of_pairwise h

/-- Sorted lists of implicants compare like the ascending sequences of their terms. -/
theorem compare_sort (is js : List Implicant) :
    compare (sort is) (sort js) =
      compare (ascending (is.map positions)) (ascending (js.map positions)) := by
  have hpositions : ∀ i j : Implicant, compare i.positions j.positions = compare i j :=
    fun _ _ => rfl
  rw [← map_ascending fun i _ j _ => hpositions i j,
    ← map_ascending fun i _ j _ => hpositions i j,
    compare_map fun i _ j _ => hpositions i j]
  rfl

theorem compareCost_congr {is is' js js' : List Implicant} (hi : is.Perm is')
    (hj : js.Perm js') : compareCost is js = compareCost is' js' := by
  unfold compareCost
  rw [hi.length_eq, hj.length_eq, (hi.map _).sum_nat, (hj.map _).sum_nat, compare_sort,
    compare_sort, ascending_eq_of_perm (hi.map positions), ascending_eq_of_perm (hj.map positions)]

/-- The implicants of selections cost what the selections cost. -/
theorem compareCost_map (s t : Selection) :
    compareCost (s.map Candidate.implicant) (t.map Candidate.implicant) =
      Selection.compareCost s t := by
  have hsum : ∀ u : Selection,
      ((u.map Candidate.implicant).map literalCount).sum = u.literals := by
    intro u
    induction u with
    | nil => rfl
    | cons c u ih =>
      rw [List.map_cons, List.map_cons, List.sum_cons, ih, Selection.literals_cons, c.term_eq,
        literalCount_eq]
  have hterms : ∀ u : Selection,
      (u.map Candidate.implicant).map positions = u.map Candidate.term := by
    intro u
    rw [List.map_map]
    exact List.map_congr_left fun c _ => c.term_eq.symm
  unfold compareCost Selection.compareCost
  rw [List.length_map, List.length_map, hsum, hsum, compare_sort, hterms, hterms]
  rfl

theorem eq_of_map_positions_eq {is js : List Implicant}
    (his : ∀ i ∈ is, i.Within Domain.width) (hjs : ∀ j ∈ js, j.Within Domain.width)
    (h : is.map positions = js.map positions) : is = js := by
  induction is generalizing js with
  | nil => exact (List.map_eq_nil_iff.1 h.symm).symm
  | cons i is ih =>
    cases js with
    | nil => simp at h
    | cons j js =>
      rw [List.map_cons, List.map_cons, List.cons.injEq] at h
      rw [eq_of_positions_eq (his i (by simp)) (hjs j (by simp)) h.1,
        ih (fun k hk => his k (List.mem_cons_of_mem _ hk))
          (fun k hk => hjs k (List.mem_cons_of_mem _ hk)) h.2]

theorem sort_eq_of_compareCost_eq {is js : List Implicant}
    (his : ∀ i ∈ is, i.Within Domain.width) (hjs : ∀ j ∈ js, j.Within Domain.width)
    (h : compareCost is js = .eq) : sort is = sort js := by
  have hsort : compare (sort is) (sort js) = .eq :=
    (Ordering.then_eq_eq.1 (Ordering.then_eq_eq.1 h).2).2
  apply eq_of_map_positions_eq
  · exact fun i hi => his i ((sort_perm is).subset hi)
  · exact fun j hj => hjs j ((sort_perm js).subset hj)
  · apply LawfulEqOrd.eq_of_compare
    rw [compare_map (f := positions) fun i _ j _ => rfl]
    exact hsort

end Implicant

namespace MinimalCover

open CoverSearch

/-! ### The cover problem of a list of rows -/

theorem map_implicant_candidates (implicants : List Implicant) :
    (candidates implicants).map Candidate.implicant = implicants := by
  unfold candidates
  rw [List.map_map]
  exact List.zipIdx_map_fst 0 implicants

theorem getElem?_of_mem_candidates {implicants : List Implicant} {c : Candidate}
    (hc : c ∈ candidates implicants) : implicants[c.index]? = some c.implicant := by
  obtain ⟨⟨i, p⟩, hi, rfl⟩ := List.mem_map.1 hc
  exact List.mk_mem_zipIdx_iff_getElem?.1 hi

theorem nodup_candidates (implicants : List Implicant) : (candidates implicants).Nodup := by
  apply List.Nodup.of_map Candidate.index
  unfold candidates
  rw [List.map_map]
  show (implicants.zipIdx.map Prod.snd).Nodup
  rw [List.zipIdx_map_snd]
  exact List.nodup_range'

theorem mem_clauseOf {all : Selection} {row : Nat} {c : Candidate} :
    c ∈ clauseOf all row ↔ c ∈ all ∧ c.implicant.covers row = true :=
  List.mem_filter

theorem isProblem_clauses {all : Selection} (hall : all.Nodup) (rows : List Nat) :
    IsProblem all (rows.map (clauseOf all)) where
  nodup := hall
  clause_nodup clause hclause := by
    obtain ⟨row, _, rfl⟩ := List.mem_map.1 hclause
    exact hall.filter _
  clause_subset clause hclause := by
    obtain ⟨row, _, rfl⟩ := List.mem_map.1 hclause
    exact fun c hc => (mem_clauseOf.1 hc).1

/-- A selection of the candidates solves the clauses of rows exactly if its implicants cover
    the rows. -/
theorem solves_iff_covers {all s : Selection} (hs : s ⊆ all) {rows : List Nat} :
    s.Solves (rows.map (clauseOf all)) ↔ Covers (s.map Candidate.implicant) rows := by
  constructor
  · intro h row hrow
    obtain ⟨c, hc, hcs⟩ := h _ (List.mem_map_of_mem hrow)
    exact ⟨c.implicant, List.mem_map_of_mem hcs, (mem_clauseOf.1 hc).2⟩
  · intro h clause hclause
    obtain ⟨row, hrow, rfl⟩ := List.mem_map.1 hclause
    obtain ⟨i, hi, hcovers⟩ := h row hrow
    obtain ⟨c, hcs, rfl⟩ := List.mem_map.1 hi
    exact ⟨c, mem_clauseOf.2 ⟨hs hcs, hcovers⟩, hcs⟩

theorem exists_selection {implicants is : List Implicant} (h : is.Subperm implicants) :
    ∃ s : Selection, s.Nodup ∧ s ⊆ candidates implicants ∧
      is.Perm (s.map Candidate.implicant) := by
  obtain ⟨is', hperm, hsub⟩ := h
  rw [← map_implicant_candidates implicants] at hsub
  obtain ⟨s, hs, rfl⟩ := List.sublist_map_iff.1 hsub
  exact ⟨s, (nodup_candidates implicants).sublist hs, hs.subset, hperm.symm⟩

/-! ### Essential candidates and what they leave -/

theorem mem_essential {all : Selection} {clauses : List Clause} {c : Candidate} :
    c ∈ essential all clauses ↔ c ∈ all ∧ [c] ∈ clauses := by
  unfold essential
  rw [List.mem_filter, List.contains_iff_mem]

theorem mem_eraseReps_loop {α : Type} [BEq α] [LawfulBEq α] {x a : α} {as acc : List α} :
    x ∈ List.eraseRepsBy.loop (· == ·) a as acc ↔ x ∈ acc ∨ x ∈ a :: as := by
  induction as generalizing a acc with
  | nil => simp [List.eraseRepsBy.loop, or_comm]
  | cons b as ih =>
    rw [List.eraseRepsBy.loop]
    split
    · next heq =>
      obtain rfl : a = b := by simpa using heq
      rw [ih]
      simp
    · rw [ih]
      simp only [List.mem_cons]
      tauto

theorem mem_eraseReps {α : Type} [BEq α] [LawfulBEq α] {x : α} {l : List α} :
    x ∈ l.eraseReps ↔ x ∈ l := by
  cases l with
  | nil => rfl
  | cons a as =>
    show x ∈ List.eraseRepsBy.loop (· == ·) a as [] ↔ _
    rw [mem_eraseReps_loop]
    simp

theorem length_eraseReps_loop_le {α : Type} [BEq α] {a : α} {as acc : List α} :
    (List.eraseRepsBy.loop (· == ·) a as acc).length ≤ acc.length + (as.length + 1) := by
  induction as generalizing a acc with
  | nil => simp [List.eraseRepsBy.loop]
  | cons b as ih =>
    rw [List.eraseRepsBy.loop, List.length_cons]
    split
    · exact ih.trans (by omega)
    · exact ih.trans (by rw [List.length_cons]; omega)

theorem length_eraseReps_le {α : Type} [BEq α] (l : List α) : l.eraseReps.length ≤ l.length := by
  cases l with
  | nil => exact Nat.le_refl _
  | cons a as =>
    show (List.eraseRepsBy.loop (· == ·) a as []).length ≤ _
    exact length_eraseReps_loop_le.trans (by simp)

theorem mem_remaining {chosen : Selection} {clauses : List Clause} {clause : Clause} :
    clause ∈ remaining chosen clauses ↔
      clause ∈ clauses ∧ ∀ c ∈ clause, c ∉ chosen := by
  unfold remaining
  dsimp only
  rw [mem_eraseReps, List.mem_mergeSort, List.mem_filter]
  simp

theorem length_remaining_le (chosen : Selection) (clauses : List Clause) :
    (remaining chosen clauses).length ≤ clauses.length := by
  rw [remaining]
  refine (length_eraseReps_le _).trans ?_
  rw [List.length_mergeSort]
  exact List.length_filter_le _ _

theorem isProblem_remaining {all chosen : Selection} {clauses : List Clause}
    (h : IsProblem all clauses) : IsProblem all (remaining chosen clauses) where
  nodup := h.nodup
  clause_nodup clause hclause := h.clause_nodup clause (mem_remaining.1 hclause).1
  clause_subset clause hclause := h.clause_subset clause (mem_remaining.1 hclause).1

theorem essential_subset {all s : Selection} {clauses : List Clause} (h : s.Solves clauses) :
    essential all clauses ⊆ s := by
  intro c hc
  obtain ⟨d, hd, hds⟩ := h [c] (mem_essential.1 hc).2
  obtain rfl : d = c := List.mem_singleton.1 hd
  exact hds

/-- What a solution has besides some chosen candidates solves the clauses that they leave. -/
theorem solves_remaining {s chosen : Selection} {clauses : List Clause} (h : s.Solves clauses) :
    Selection.Solves (s.filter fun c => !chosen.contains c) (remaining chosen clauses) := by
  intro clause hclause
  obtain ⟨hmem, hopen⟩ := mem_remaining.1 hclause
  obtain ⟨c, hc, hcs⟩ := h clause hmem
  exact ⟨c, hc, List.mem_filter.2 ⟨hcs, by simpa using hopen c hc⟩⟩

/-- Solving the clauses that some chosen candidates leave completes them to a solution. -/
theorem solves_append {s chosen : Selection} {clauses : List Clause}
    (h : s.Solves (remaining chosen clauses)) : Selection.Solves (chosen ++ s) clauses := by
  intro clause hclause
  by_cases hopen : ∀ c ∈ clause, c ∉ chosen
  · obtain ⟨c, hc, hcs⟩ := h clause (mem_remaining.2 ⟨hclause, hopen⟩)
    exact ⟨c, hc, List.mem_append_right _ hcs⟩
  · push Not at hopen
    obtain ⟨c, hc, hchosen⟩ := hopen
    exact ⟨c, hc, List.mem_append_left _ hchosen⟩

theorem perm_append_filter {s chosen : Selection} (hs : s.Nodup) (hchosen : chosen.Nodup)
    (hsub : chosen ⊆ s) : s.Perm (chosen ++ s.filter fun c => !chosen.contains c) := by
  have hdisjoint : List.Disjoint chosen (s.filter fun c => !chosen.contains c) := by
    intro c hc hfilter
    have hnot := (List.mem_filter.1 hfilter).2
    simp [hc] at hnot
  rw [List.perm_ext_iff_of_nodup hs (hchosen.append (hs.filter _) hdisjoint)]
  intro c
  rw [List.mem_append, List.mem_filter]
  by_cases hc : c ∈ chosen
  · simp [hc, hsub hc]
  · simp [hc]

/-- The candidates of the minimal cover: the essential ones and the answer of the search. -/
def selection (all : Selection) (clauses : List Clause) : Selection :=
  essential all clauses ++ solve all (remaining (essential all clauses) clauses)

/-- If every clause offers a candidate then the essential candidates and the answer of the
    search are a solution, and no solution is cheaper. -/
theorem selection_isSolution {all : Selection} {clauses : List Clause}
    (h : IsProblem all clauses) (hoffer : ∀ clause ∈ clauses, clause ≠ []) :
    IsSolution all clauses (selection all clauses) ∧
      ∀ s, IsSolution all clauses s →
        (Selection.compareCost (selection all clauses) s).isLE := by
  have hrest : IsProblem all (remaining (essential all clauses) clauses) :=
    isProblem_remaining h
  have hrestOffer : ∀ clause ∈ remaining (essential all clauses) clauses, clause ≠ [] :=
    fun clause hclause => hoffer clause (mem_remaining.1 hclause).1
  have hnodup : (essential all clauses).Nodup := h.nodup.filter _
  obtain ⟨hsolution, hleast⟩ := solve_isSolution hrest hrestOffer
  constructor
  · refine ⟨hnodup.append hsolution.nodup ?_, ?_, solves_append hsolution.solves⟩
    · -- the search answers with candidates of the clauses that are left
      intro c hc hsolve
      obtain ⟨clause, hclause, hmem⟩ := exists_clause_of_mem_solve hrest hrestOffer hsolve
      exact (mem_remaining.1 hclause).2 c hmem hc
    · exact List.append_subset.2 ⟨fun c hc => (mem_essential.1 hc).1, hsolution.subset⟩
  · intro s hs
    have hsub : essential all clauses ⊆ s := essential_subset hs.solves
    -- the essential candidates are a common part, so only what is left is compared
    rw [Selection.compareCost_congr_right (perm_append_filter hs.nodup hnodup hsub), selection,
      Selection.compareCost_append]
    apply hleast
    exact ⟨hs.nodup.filter _, fun c hc => hs.subset (List.mem_of_mem_filter hc),
      solves_remaining hs.solves⟩

theorem clause_ne_nil {implicants : List Implicant} {rows : List Nat}
    (h : Covers implicants rows) {clause : Clause}
    (hclause : clause ∈ rows.map (clauseOf (candidates implicants))) : clause ≠ [] := by
  rw [← map_implicant_candidates implicants] at h
  obtain ⟨c, hc, _⟩ := (solves_iff_covers fun _ hc => hc).2 h clause hclause
  exact List.ne_nil_of_mem hc

theorem minimalCover_eq_sort (implicants : List Implicant) (rows : List Nat) :
    minimalCover implicants rows =
      Implicant.sort ((selection (candidates implicants)
        (rows.map (clauseOf (candidates implicants)))).map Candidate.implicant) :=
  rfl

/-- The minimal cover is a sub-multiset of the implicants that covers the rows. -/
theorem minimalCover_covers {implicants : List Implicant} {rows : List Nat}
    (h : Covers implicants rows) :
    (minimalCover implicants rows).Subperm implicants ∧
      Covers (minimalCover implicants rows) rows := by
  have hproblem := isProblem_clauses (nodup_candidates implicants) rows
  obtain ⟨hsolution, _⟩ := selection_isSolution hproblem fun _ => clause_ne_nil h
  rw [minimalCover_eq_sort]
  have hperm := Implicant.sort_perm ((selection (candidates implicants)
    (rows.map (clauseOf (candidates implicants)))).map Candidate.implicant)
  constructor
  · obtain ⟨s, hs, hsub⟩ := hsolution.nodup.subperm hsolution.subset
    have himplicants := hsub.map Candidate.implicant
    rw [map_implicant_candidates] at himplicants
    exact ⟨_, (hs.map Candidate.implicant).trans hperm.symm, himplicants⟩
  · exact ((solves_iff_covers hsolution.subset).1 hsolution.solves).perm hperm.symm

/-- No sub-multiset of the implicants that covers the rows is cheaper than the minimal cover. -/
theorem isLE_minimalCover {implicants is : List Implicant} {rows : List Nat}
    (hsub : is.Subperm implicants) (his : Covers is rows) :
    (Implicant.compareCost (minimalCover implicants rows) is).isLE := by
  have hproblem := isProblem_clauses (nodup_candidates implicants) rows
  have hoffer : Covers implicants rows := by
    intro row hrow
    obtain ⟨i, hi, hcovers⟩ := his row hrow
    exact ⟨i, hsub.subset hi, hcovers⟩
  obtain ⟨_, hleast⟩ := selection_isSolution hproblem fun _ => clause_ne_nil hoffer
  obtain ⟨s, hnodup, hsubset, hperm⟩ := exists_selection hsub
  rw [minimalCover_eq_sort, Implicant.compareCost_congr (Implicant.sort_perm _) hperm,
    Implicant.compareCost_map]
  exact hleast s ⟨hnodup, hsubset, (solves_iff_covers hsubset).2 (his.perm hperm)⟩

theorem pairwise_minimalCover (implicants : List Implicant) (rows : List Nat) :
    (minimalCover implicants rows).Pairwise fun i j => (compare i j).isLE :=
  pairwise_ascending _

/-- Candidates and rows may be listed in any order, and rows any number of times. -/
theorem minimalCover_congr {implicants implicants' : List Implicant} {rows rows' : List Nat}
    (hwithin : ∀ i ∈ implicants, i.Within Domain.width) (h : Covers implicants rows)
    (hperm : implicants'.Perm implicants) (hrows : ∀ row, row ∈ rows' ↔ row ∈ rows) :
    minimalCover implicants' rows' = minimalCover implicants rows := by
  have hcover : ∀ {is}, Covers is rows' ↔ Covers is rows := fun {is} =>
    ⟨fun hc row hrow => hc row ((hrows row).2 hrow),
      fun hc row hrow => hc row ((hrows row).1 hrow)⟩
  obtain ⟨hsub, hcovers⟩ := minimalCover_covers h
  obtain ⟨hsub', hcovers'⟩ := minimalCover_covers (hcover.2 (h.perm hperm.symm))
  have hle := isLE_minimalCover (hsub'.trans hperm.subperm) (hcover.1 hcovers')
  have hge := isLE_minimalCover (hsub.trans hperm.symm.subperm) (hcover.2 hcovers)
  have hin : ∀ i ∈ minimalCover implicants rows, i.Within Domain.width :=
    fun i hi => hwithin i (hsub.subset hi)
  have hin' : ∀ i ∈ minimalCover implicants' rows', i.Within Domain.width :=
    fun i hi => hwithin i (hperm.subset (hsub'.subset hi))
  have hsort := Implicant.sort_eq_of_compareCost_eq hin' hin
    (OrientedCmp.isLE_antisymm hge hle)
  rwa [Implicant.sort_of_pairwise (pairwise_minimalCover implicants' rows'),
    Implicant.sort_of_pairwise (pairwise_minimalCover implicants rows)] at hsort

end MinimalCover

/-- The minimal cover of rows that are covered at all is ascending, is a sub-multiset of the
    candidates, covers the rows, and is the minimum over all sub-multisets of the candidates
    that do, by number of implicants, then literals, then ascending sequence. For implicants
    over the positions of a row, neither the order of candidates and rows nor repeats of rows
    change it. -/
theorem minimalCover_isMinimum (implicants : List Implicant) (rows : List Nat)
    (h : Covers implicants rows) :
    let cover := minimalCover implicants rows
    cover.Pairwise (fun i j => (compare i j).isLE) ∧
    cover.Subperm implicants ∧
    Covers cover rows ∧
    (∀ is, is.Subperm implicants → Covers is rows →
      (Implicant.compareCost cover is).isLE) ∧
    ((∀ i ∈ implicants, i.Within Domain.width) →
      ∀ implicants' rows', implicants'.Perm implicants → (∀ row, row ∈ rows' ↔ row ∈ rows) →
        minimalCover implicants' rows' = cover) := by
  obtain ⟨hsub, hcovers⟩ := MinimalCover.minimalCover_covers h
  refine ⟨MinimalCover.pairwise_minimalCover implicants rows, hsub, hcovers, ?_, ?_⟩
  · intro is his hcover
    exact MinimalCover.isLE_minimalCover his hcover
  · intro hwithin implicants' rows' hperm hrows
    exact MinimalCover.minimalCover_congr hwithin h hperm hrows

/-- The six primes of a cyclic function, one of them twice, over its rows: two covers of three
    terms tie on the number of literals, and neither order matters. -/
theorem minimalCover_isMinimum_cyclic :
    let cyclic : List Implicant := [⟨0, 6⟩, ⟨6, 6⟩, ⟨1, 5⟩, ⟨3, 3⟩, ⟨4, 5⟩, ⟨0, 3⟩, ⟨6, 6⟩]
    let rows := [7, 0, 4, 6, 1, 3, 3]
    Covers cyclic rows ∧
    (Implicant.compareCost (minimalCover cyclic rows) [⟨0, 3⟩, ⟨1, 5⟩, ⟨6, 6⟩]).isLE ∧
    minimalCover cyclic.reverse rows.reverse = minimalCover cyclic rows := by
  intro cyclic rows
  have hcovers : Covers cyclic rows := by decide
  obtain ⟨_, _, _, hleast, horder⟩ := minimalCover_isMinimum cyclic rows hcovers
  refine ⟨hcovers, hleast _ (by decide) (by decide), ?_⟩
  exact horder (by decide) _ _ (List.reverse_perm cyclic) fun _ => List.mem_reverse

end RulePaths
