import RulePaths.Proofs.Cover.Bounds

/-!
# The search finds a cheapest selection

Branching loses nothing: whatever a node reaches is reached by one of its children, and a child
reaches nothing else. With the bounds this makes the answer of the search at a node the
cheapest among the best selection so far and all that the node reaches, by induction on the
depth, and so the answer at the root the cheapest of all selections that solve the problem.

## Main definitions

- `Node.Branches` — how branching on a clause makes a node of another one
- `Cheapest` — what a search returns: a cheapest one of a selection and a set of others

## Main results

- `Node.wellFormed_of_branches` — branching keeps the invariant and closes a clause
- `Node.exists_child_reaches`, `Node.reaches_of_child` — branching keeps what is reached
- `search_cheapest` — the answer at a well-formed node
- `solve_cheapest` — the answer for a problem, if every clause offers a candidate
-/

namespace RulePaths

namespace CoverSearch

open Std Selection

namespace Node

/-! ### One branching step -/

theorem completes_exclude {n : Node} {c : Candidate} {t : Selection} :
    (n.exclude c).Completes t ↔ n.Completes t ∧ c ∉ t := by
  constructor
  · intro h
    have hfree : ∀ d ∈ t, d ∈ n.free ∧ d ≠ c := fun d hd => by
      simpa [exclude] using h.subset hd
    refine ⟨⟨h.nodup, fun d hd => (hfree d hd).1, ?_⟩, fun hc => (hfree c hc).2 rfl⟩
    intro clause hclause
    obtain ⟨d, hd, hdt⟩ := h.solves (clause.filter (· != c)) (List.mem_map_of_mem hclause)
    exact ⟨d, List.mem_of_mem_filter hd, hdt⟩
  · rintro ⟨h, hc⟩
    have hne : ∀ d ∈ t, d ≠ c := fun d hd heq => hc (heq ▸ hd)
    refine ⟨h.nodup, fun d hd => ?_, ?_⟩
    · simpa [exclude] using ⟨h.subset hd, hne d hd⟩
    · intro clause hclause
      obtain ⟨whole, hwhole, rfl⟩ := List.mem_map.1 hclause
      obtain ⟨d, hd, hdt⟩ := h.solves whole hwhole
      exact ⟨d, by simpa using ⟨hd, hne d hdt⟩, hdt⟩

theorem completes_select {n : Node} {c : Candidate} {t : Selection} (hc : c ∈ n.free) :
    (n.select c).Completes t ↔ n.Completes (c :: t) := by
  constructor
  · intro h
    have hfree : ∀ d ∈ t, d ∈ n.free ∧ d ≠ c := fun d hd => by
      simpa [select] using h.subset hd
    refine ⟨List.nodup_cons.2 ⟨fun hct => (hfree c hct).2 rfl, h.nodup⟩, ?_, ?_⟩
    · intro d hd
      rcases List.mem_cons.1 hd with rfl | hd
      · exact hc
      · exact (hfree d hd).1
    · intro clause hclause
      by_cases hin : c ∈ clause
      · exact ⟨c, hin, by simp⟩
      · obtain ⟨d, hd, hdt⟩ := h.solves clause (mem_without.2 ⟨hclause, hin⟩)
        exact ⟨d, hd, List.mem_cons_of_mem _ hdt⟩
  · intro h
    obtain ⟨hct, hnodup⟩ := List.nodup_cons.1 h.nodup
    refine ⟨hnodup, fun d hd => ?_, ?_⟩
    · have hne : d ≠ c := fun heq => hct (heq ▸ hd)
      simpa [select] using ⟨h.subset (List.mem_cons_of_mem _ hd), hne⟩
    · intro clause hclause
      obtain ⟨hopen, hin⟩ := mem_without.1 hclause
      obtain ⟨d, hd, hdt⟩ := h.solves clause hopen
      rcases List.mem_cons.1 hdt with rfl | hdt
      · exact absurd hd hin
      · exact ⟨d, hd, hdt⟩

theorem WellFormed.exclude {least : Nat} {n : Node} (hn : n.WellFormed least) (c : Candidate) :
    (n.exclude c).WellFormed least where
  free_ascending := hn.free_ascending.sublist (List.filter_sublist.map _)
  least_le d hd := hn.least_le d (List.mem_of_mem_filter hd)
  clause_nodup clause hclause := by
    obtain ⟨whole, hwhole, rfl⟩ := List.mem_map.1 hclause
    exact (hn.clause_nodup whole hwhole).filter _
  clause_subset clause hclause := by
    obtain ⟨whole, hwhole, rfl⟩ := List.mem_map.1 hclause
    intro d hd
    obtain ⟨hd, hne⟩ := List.mem_filter.1 hd
    exact List.mem_filter.2 ⟨hn.clause_subset whole hwhole hd, hne⟩

theorem WellFormed.select {least : Nat} {n : Node} (hn : n.WellFormed least) (c : Candidate) :
    (n.select c).WellFormed least where
  free_ascending := hn.free_ascending.sublist (List.filter_sublist.map _)
  least_le d hd := hn.least_le d (List.mem_of_mem_filter hd)
  clause_nodup clause hclause := hn.clause_nodup clause (mem_without.1 hclause).1
  clause_subset clause hclause := by
    obtain ⟨hopen, hin⟩ := mem_without.1 hclause
    intro d hd
    have hne : d ≠ c := fun heq => hin (heq ▸ hd)
    exact List.mem_filter.2 ⟨hn.clause_subset clause hopen hd, by simpa using hne⟩

theorem filter_ne_head {c : Candidate} {cs : Clause} (h : (c :: cs).Nodup) :
    (c :: cs).filter (· != c) = cs := by
  have hc := (List.nodup_cons.1 h).1
  rw [List.filter_cons_of_neg (by simp), List.filter_eq_self]
  intro d hd
  have hne : d ≠ c := fun heq => hc (heq ▸ hd)
  simpa using hne

theorem mem_clauses_exclude {least : Nat} {n : Node} {c : Candidate} {cs : Clause}
    (hn : n.WellFormed least) (h : c :: cs ∈ n.clauses) : cs ∈ (n.exclude c).clauses :=
  List.mem_map.2 ⟨c :: cs, h, filter_ne_head (hn.clause_nodup _ h)⟩

/-- A node after some candidates of a clause were given up in turn and the next one was selected.
    The children of a node come about in this way, as long as no clause is left without
    candidates. -/
inductive Branches : Node → Clause → Node → Prop where
  | select (n : Node) (c : Candidate) (cs : Clause) : Branches n (c :: cs) (n.select c)
  | exclude {n m : Node} {c : Candidate} {cs : Clause} (h : Branches (n.exclude c) cs m) :
      Branches n (c :: cs) m

theorem branches_of_child {n child : Node} {branch : Clause} (h : child ∈ n.children branch) :
    Branches n branch child := by
  induction branch generalizing n with
  | nil => simp [children] at h
  | cons c cs ih =>
    rw [children] at h
    split at h
    · simp at h
    · rcases List.mem_cons.1 h with rfl | hrest
      · exact .select n c cs
      · exact .exclude (ih hrest)

/-- Branching keeps the invariant and closes a clause. -/
theorem wellFormed_of_branches {least : Nat} {n child : Node} {branch : Clause}
    (hn : n.WellFormed least) (hbranch : branch ∈ n.clauses) (hchild : Branches n branch child) :
    child.WellFormed least ∧ child.clauses.length < n.clauses.length := by
  induction hchild with
  | select n c cs => exact ⟨hn.select c, length_without_lt hbranch (by simp)⟩
  | @exclude n m c cs _ ih =>
    have := ih (hn.exclude c) (mem_clauses_exclude hn hbranch)
    simpa [exclude] using this

/-- The children of a node keep the invariant and have fewer open clauses. -/
theorem wellFormed_of_child {least : Nat} {n child : Node} {branch : Clause}
    (hn : n.WellFormed least) (hbranch : branch ∈ n.clauses)
    (hchild : child ∈ n.children branch) :
    child.WellFormed least ∧ child.clauses.length < n.clauses.length :=
  wellFormed_of_branches hn hbranch (branches_of_child hchild)

theorem reaches_of_branches {least : Nat} {n child : Node} {branch : Clause} {s : Selection}
    (hn : n.WellFormed least) (hbranch : branch ∈ n.clauses) (hchild : Branches n branch child)
    (h : child.Reaches s) : n.Reaches s := by
  induction hchild with
  | select n c cs =>
    have hc : c ∈ n.free := hn.clause_subset _ hbranch (List.mem_cons_self ..)
    obtain ⟨t, ht, hperm⟩ := h
    exact ⟨c :: t, (completes_select hc).1 ht, hperm.trans List.perm_middle.symm⟩
  | @exclude n m c cs _ ih =>
    obtain ⟨t, ht, hperm⟩ := ih (hn.exclude c) (mem_clauses_exclude hn hbranch) h
    exact ⟨t, (completes_exclude.1 ht).1, hperm⟩

theorem reaches_of_child {least : Nat} {n child : Node} {branch : Clause} {s : Selection}
    (hn : n.WellFormed least) (hbranch : branch ∈ n.clauses)
    (hchild : child ∈ n.children branch) (h : child.Reaches s) : n.Reaches s :=
  reaches_of_branches hn hbranch (branches_of_child hchild) h

/-- What a node reaches one of its children reaches: the one for the first candidate of the
    clause that the completion has. -/
theorem exists_child_reaches {least : Nat} {n : Node} {branch : Clause} {s : Selection}
    (hn : n.WellFormed least) (hbranch : branch ∈ n.clauses) (h : n.Reaches s) :
    ∃ child ∈ n.children branch, child.Reaches s := by
  induction branch generalizing n with
  | nil =>
    obtain ⟨t, ht, _⟩ := h
    obtain ⟨c, hc, _⟩ := ht.solves [] hbranch
    simp at hc
  | cons c cs ih =>
    obtain ⟨t, ht, hperm⟩ := h
    have halive : ¬ n.isDead = true := fun hdead => not_completes_of_isDead hdead t ht
    rw [children, if_neg halive]
    -- the completion has the first candidate, or it is one of the node without it
    by_cases hct : c ∈ t
    · have hc : c ∈ n.free := hn.clause_subset _ hbranch (List.mem_cons_self ..)
      have hmove : t.Perm (c :: t.erase c) := List.perm_cons_erase hct
      refine ⟨n.select c, List.mem_cons_self .., t.erase c, ?_, ?_⟩
      · exact (completes_select hc).2 (ht.perm hmove)
      · exact hperm.trans ((hmove.append_left _).trans List.perm_middle)
    · obtain ⟨child, hchild, hreach⟩ := ih (hn.exclude c) (mem_clauses_exclude hn hbranch)
        ⟨t, completes_exclude.2 ⟨ht, hct⟩, hperm⟩
      exact ⟨child, List.mem_cons_of_mem _ hchild, hreach⟩

end Node

/-! ### The whole search -/

/-- A selection is a cheapest one of `best` and the selections of a set. -/
structure Cheapest (set : Selection → Prop) (best found : Selection) : Prop where
  origin : found = best ∨ set found
  le_best : (compareCost found best).isLE
  le_of_mem : ∀ s, set s → (compareCost found s).isLE

namespace Cheapest

theorem of_le {set : Selection → Prop} {best : Selection}
    (h : ∀ s, set s → (compareCost best s).isLE) : Cheapest set best best :=
  ⟨Or.inl rfl, ReflCmp.isLE_rfl, h⟩

theorem congr {set set' : Selection → Prop} {best found : Selection}
    (h : Cheapest set best found) (hiff : ∀ s, set s ↔ set' s) : Cheapest set' best found where
  origin := h.origin.imp_right (hiff found).1
  le_best := h.le_best
  le_of_mem s hs := h.le_of_mem s ((hiff s).2 hs)

/-- Steps that each improve on the answer of the step before improve on all of them. -/
theorem foldl {set : Node → Selection → Prop} {step : Selection → Node → Selection}
    {children : List Node} (best : Selection)
    (h : ∀ child ∈ children, ∀ best, Cheapest (set child) best (step best child)) :
    Cheapest (fun s => ∃ child ∈ children, set child s) best (children.foldl step best) := by
  induction children generalizing best with
  | nil =>
    apply of_le
    rintro s ⟨child, hchild, _⟩
    simp at hchild
  | cons child rest ih =>
    rw [List.foldl_cons]
    have hhead := h child (List.mem_cons_self ..) best
    have htail := ih (step best child) fun c hc => h c (List.mem_cons_of_mem _ hc)
    refine ⟨?_, TransCmp.isLE_trans htail.le_best hhead.le_best, ?_⟩
    · rcases htail.origin with heq | ⟨c, hc, hset⟩
      · rw [heq]
        exact hhead.origin.imp_right fun hset => ⟨child, List.mem_cons_self .., hset⟩
      · exact Or.inr ⟨c, List.mem_cons_of_mem _ hc, hset⟩
    · rintro s ⟨c, hc, hset⟩
      rcases List.mem_cons.1 hc with rfl | hc
      · exact TransCmp.isLE_trans htail.le_best (hhead.le_of_mem s hset)
      · exact htail.le_of_mem s ⟨c, hc, hset⟩

end Cheapest

/-- A node without open clauses reaches its selected candidates, and nothing cheaper. -/
theorem improve_cheapest {n : Node} (h : n.clauses = []) (best : Selection) :
    Cheapest n.Reaches best (improve n.selected best) := by
  have hself : n.Reaches n.selected :=
    ⟨[], ⟨List.nodup_nil, List.nil_subset _, by simp [h, Solves]⟩, by simp⟩
  have hleast : ∀ s, n.Reaches s → (compareCost n.selected s).isLE := by
    rintro s ⟨t, _, hperm⟩
    rw [compareCost_congr_right hperm]
    exact isLE_compareCost_append n.selected t
  unfold improve
  split
  · next hlt =>
    exact ⟨Or.inr hself, Ordering.isLE_of_eq_lt (by simpa using hlt), hleast⟩
  · next hge =>
    have hle : (compareCost best n.selected).isLE := by
      by_contra hlt
      exact hge (by simp [OrientedCmp.lt_of_not_isLE hlt])
    exact Cheapest.of_le fun s hs => TransCmp.isLE_trans hle (hleast s hs)

/-- The search at a well-formed node returns a cheapest one of the best selection so far and
    all selections that the node reaches. -/
theorem search_cheapest {least depth : Nat} {n : Node} (hn : n.WellFormed least)
    (hdepth : n.clauses.length ≤ depth) (best : Selection) :
    Cheapest n.Reaches best (search least depth n best) := by
  induction depth generalizing n best with
  | zero =>
    -- the depth never runs out before the clauses do
    have hclauses : n.clauses = [] := List.length_eq_zero_iff.1 (Nat.le_zero.1 hdepth)
    have hordered : n.ordered = [] := by
      simpa [hclauses] using n.ordered_perm
    have halive : n.isDead = false := by simp [Node.isDead, hclauses]
    simp only [search, halive, hordered]
    exact improve_cheapest hclauses best
  | succ depth ih =>
    rw [search]
    by_cases hdead : n.isDead = true
    · rw [if_pos hdead]
      apply Cheapest.of_le
      rintro s ⟨t, ht, _⟩
      exact absurd ht (Node.not_completes_of_isDead hdead t)
    · rw [if_neg hdead]
      cases hordered : n.ordered with
      | nil =>
        have hclauses : n.clauses = [] := by
          simpa [hordered] using n.ordered_perm.symm
        exact improve_cheapest hclauses best
      | cons branch rest =>
        have hbranch : branch ∈ n.clauses := by
          rw [← Node.mem_ordered, hordered]
          exact List.mem_cons_self ..
        dsimp only
        by_cases hpruned : n.isPruned least best = true
        · rw [if_pos hpruned]
          exact Cheapest.of_le fun s hs => Node.isLE_of_isPruned hn.toRanked hpruned hs
        · rw [if_neg hpruned]
          have hchildren : ∀ child ∈ n.children branch, ∀ best,
              Cheapest child.Reaches best (search least depth child best) := by
            intro child hchild best
            obtain ⟨hwf, hlt⟩ := Node.wellFormed_of_child hn hbranch hchild
            exact ih hwf (by omega) best
          refine (Cheapest.foldl best hchildren).congr fun s => ⟨?_, ?_⟩
          · rintro ⟨child, hchild, hreach⟩
            exact Node.reaches_of_child hn hbranch hchild hreach
          · exact Node.exists_child_reaches hn hbranch

/-! ### The search from the root -/

theorem leastLiterals_le {all : Selection} {c : Candidate} (hc : c ∈ all) :
    leastLiterals all ≤ c.term.length := by
  have hmem : c.term.length ∈ all.map fun c => c.term.length := List.mem_map_of_mem hc
  unfold leastLiterals
  cases hmin : (all.map fun c => c.term.length).min? with
  | none =>
    rw [List.min?_eq_none_iff.1 hmin] at hmem
    simp at hmem
  | some m => exact (List.min?_eq_some_iff.1 hmin).2 _ hmem

instance : TransCmp Candidate.compareByTerm :=
  inferInstanceAs (TransCmp (compareLex (compareOn Candidate.term) (compareOn Candidate.index)))

theorem pairwise_byTerm (all : Selection) :
    ((all.mergeSort fun a b => (Candidate.compareByTerm a b).isLE).map
      Candidate.term).Pairwise fun a b => (compare a b).isLE := by
  rw [List.pairwise_map]
  have htotal : ∀ a b, ((Candidate.compareByTerm a b).isLE ||
      (Candidate.compareByTerm b a).isLE) = true := by
    intro a b
    have hswap : Candidate.compareByTerm b a = (Candidate.compareByTerm a b).swap :=
      OrientedCmp.eq_swap
    rw [hswap]
    cases Candidate.compareByTerm a b <;> rfl
  refine (List.pairwise_mergeSort (fun a b c => TransCmp.isLE_trans) htotal all).imp ?_
  intro a b hab
  exact (Ordering.isLE_then_iff_and.1 hab).1

/-- A problem over given candidates: they are distinct, and so are those of each clause, which
    are all among the given ones. -/
structure IsProblem (all : Selection) (clauses : List Clause) : Prop where
  nodup : all.Nodup
  clause_nodup : ∀ clause ∈ clauses, clause.Nodup
  clause_subset : ∀ clause ∈ clauses, clause ⊆ all

/-- A set of the given candidates that solves all clauses. -/
structure IsSolution (all : Selection) (clauses : List Clause) (s : Selection) : Prop where
  nodup : s.Nodup
  subset : s ⊆ all
  solves : s.Solves clauses

theorem Node.of_root (all : Selection) (clauses : List Clause) :
    Node.of all clauses [] [] = ⟨clauses, [], all⟩ := by
  simp [Node.of]

theorem Node.reaches_root {all byTerm : Selection} {clauses : List Clause} {s : Selection}
    (hperm : byTerm.Perm all) :
    (⟨clauses, [], byTerm⟩ : Node).Reaches s ↔ IsSolution all clauses s := by
  constructor
  · rintro ⟨t, ht, hs⟩
    have hs : s.Perm t := hs
    refine ⟨hs.nodup_iff.2 ht.nodup, fun c hc => ?_, ht.solves.mono hs.symm.subset⟩
    exact hperm.subset (ht.subset (hs.subset hc))
  · intro h
    exact ⟨s, ⟨h.nodup, fun c hc => hperm.symm.subset (h.subset hc), h.solves⟩, List.Perm.refl s⟩

/-- The root of the search. -/
def root (all : Selection) (clauses : List Clause) : Node :=
  Node.of (all.mergeSort fun a b => (Candidate.compareByTerm a b).isLE) clauses [] []

theorem wellFormed_root {all : Selection} {clauses : List Clause} (h : IsProblem all clauses) :
    (root all clauses).WellFormed (leastLiterals all) := by
  have hperm := List.mergeSort_perm all fun a b => (Candidate.compareByTerm a b).isLE
  rw [root, Node.of_root]
  exact {
    free_ascending := pairwise_byTerm all
    least_le := fun c hc => leastLiterals_le (hperm.subset hc)
    clause_nodup := h.clause_nodup
    clause_subset := fun clause hclause c hc =>
      hperm.symm.subset (h.clause_subset clause hclause hc) }

theorem length_clauses_root (all : Selection) (clauses : List Clause) :
    (root all clauses).clauses.length ≤ clauses.length := by
  rw [root, Node.of_root]

/-- The answer of the search is a cheapest one of the greedy selection and all solutions. -/
theorem solve_cheapest {all : Selection} {clauses : List Clause}
    (h : IsProblem all clauses) :
    Cheapest (IsSolution all clauses) (greedy all clauses) (solve all clauses) := by
  have hperm := List.mergeSort_perm all fun a b => (Candidate.compareByTerm a b).isLE
  refine (search_cheapest (wellFormed_root h) (length_clauses_root all clauses) _).congr fun s => ?_
  rw [root, Node.of_root]
  exact Node.reaches_root hperm

theorem greedy_isSolution {all : Selection} {clauses : List Clause}
    (h : IsProblem all clauses) (hoffer : ∀ clause ∈ clauses, clause ≠ []) :
    IsSolution all clauses (greedy all clauses) where
  nodup := nodup_greedy all clauses
  subset _ hc := (mem_of_mem_greedy hc).1
  solves clause hclause := by
    obtain ⟨c, hc⟩ := List.exists_mem_of_ne_nil clause (hoffer clause hclause)
    exact greedy_covers hclause ⟨c, hc, h.clause_subset clause hclause hc⟩

/-- If every clause offers a candidate then the answer of the search is a solution, and no
    solution is cheaper. -/
theorem solve_isSolution {all : Selection} {clauses : List Clause}
    (h : IsProblem all clauses) (hoffer : ∀ clause ∈ clauses, clause ≠ []) :
    IsSolution all clauses (solve all clauses) ∧
      ∀ s, IsSolution all clauses s → (compareCost (solve all clauses) s).isLE := by
  have hcheapest := solve_cheapest h
  refine ⟨?_, hcheapest.le_of_mem⟩
  rcases hcheapest.origin with heq | hsolution
  · rw [heq]
    exact greedy_isSolution h hoffer
  · exact hsolution

/-- Every candidate of the answer belongs to some clause, since without it the answer would be
    a cheaper solution. -/
theorem exists_clause_of_mem_solve {all : Selection} {clauses : List Clause}
    (h : IsProblem all clauses) (hoffer : ∀ clause ∈ clauses, clause ≠ []) {c : Candidate}
    (hc : c ∈ solve all clauses) : ∃ clause ∈ clauses, c ∈ clause := by
  obtain ⟨hsolution, hleast⟩ := solve_isSolution h hoffer
  by_contra hnone
  have hrest : IsSolution all clauses ((solve all clauses).erase c) := by
    refine ⟨hsolution.nodup.erase c, fun d hd => hsolution.subset (List.mem_of_mem_erase hd), ?_⟩
    intro clause hclause
    obtain ⟨d, hd, hds⟩ := hsolution.solves clause hclause
    have hne : d ≠ c := fun heq => hnone ⟨clause, hclause, heq ▸ hd⟩
    exact ⟨d, hd, hsolution.nodup.mem_erase_iff.2 ⟨hne, hds⟩⟩
  have hle := isLE_compareCost_iff.1 (hleast _ hrest)
  have hlength := List.length_erase_of_mem hc
  have hpos := List.length_pos_of_mem hc
  omega

end CoverSearch

end RulePaths
