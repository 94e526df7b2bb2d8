import RulePaths.Formula.CoverSearch
import RulePaths.Proofs.Order.Ascending

/-!
# Selections, their cost and the greedy selection

A selection solves a list of clauses if it has a candidate of each of them. This module holds
the laws of the comparison by which selections are judged, and shows that the greedy selection
solves every clause that can be solved at all.

## Main definitions

- `Selection.Solves` — every clause has a candidate of the selection

## Main results

- `Selection.compareCost_append` — a common part does not change how two selections compare
- `CoverSearch.greedy_covers` — the greedy selection has a candidate of every clause that
  offers one
-/

namespace RulePaths

open Std

namespace Selection

/-- Every clause has a candidate of the selection. -/
def Solves (s : Selection) (clauses : List Clause) : Prop :=
  ∀ clause ∈ clauses, ∃ c ∈ clause, c ∈ s

theorem Solves.mono {s t : Selection} {clauses : List Clause} (h : s.Solves clauses)
    (hst : s ⊆ t) : t.Solves clauses := by
  intro clause hclause
  obtain ⟨c, hc, hcs⟩ := h clause hclause
  exact ⟨c, hc, hst hcs⟩

/-! ### Laws of the cost -/

@[simp] theorem literals_nil : literals [] = 0 := rfl

@[simp] theorem literals_cons (c : Candidate) (s : Selection) :
    literals (c :: s) = c.term.length + literals s := rfl

@[simp] theorem literals_append (s t : Selection) :
    literals (s ++ t) = literals s + literals t := by
  induction s with
  | nil => simp
  | cons c s ih => rw [List.cons_append, literals_cons, literals_cons, ih, Nat.add_assoc]

theorem literals_eq_of_perm {s t : Selection} (h : s.Perm t) : literals s = literals t := by
  induction h with
  | nil => rfl
  | cons c _ ih => rw [literals_cons, literals_cons, ih]
  | swap c d s => simp only [literals_cons, Nat.add_left_comm]
  | trans _ _ ih₁ ih₂ => exact ih₁.trans ih₂

theorem length_mul_le_literals {least : Nat} {s : Selection}
    (h : ∀ c ∈ s, least ≤ c.term.length) : s.length * least ≤ s.literals := by
  induction s with
  | nil => simp
  | cons c s ih =>
    have hc := h c (by simp)
    have hs := ih fun d hd => h d (List.mem_cons_of_mem _ hd)
    rw [List.length_cons, Nat.succ_mul, literals_cons]
    omega

theorem literals_le_length_mul {s : Selection} {most : Nat} (h : ∀ c ∈ s, c.term.length ≤ most) :
    s.literals ≤ s.length * most := by
  induction s with
  | nil => simp
  | cons c s ih =>
    have hc := h c List.mem_cons_self
    have hs := ih fun d hd => h d (List.mem_cons_of_mem _ hd)
    rw [List.length_cons, Nat.succ_mul, literals_cons]
    omega

theorem terms_eq_ascending (s : Selection) : s.terms = ascending (s.map Candidate.term) := rfl

theorem terms_eq_of_perm {s t : Selection} (h : s.Perm t) : s.terms = t.terms :=
  ascending_eq_of_perm (h.map _)

instance : TransCmp compareCost :=
  inferInstanceAs (TransCmp (compareLex (compareOn List.length)
    (compareLex (compareOn literals) (compareOn terms))))

theorem compareCost_congr_right {s t t' : Selection} (h : t.Perm t') :
    compareCost s t = compareCost s t' := by
  unfold compareCost
  rw [h.length_eq, literals_eq_of_perm h, terms_eq_of_perm h]

/-- One selection costs no more than another one if it has fewer candidates, or as many and
    fewer literals, or as many of both and terms that come no later. -/
theorem isLE_compareCost_iff {s t : Selection} :
    (compareCost s t).isLE ↔
      s.length < t.length ∨ s.length = t.length ∧
        (s.literals < t.literals ∨ s.literals = t.literals ∧
          (compare s.terms t.terms).isLE) := by
  unfold compareCost
  rcases Nat.lt_trichotomy s.length t.length with hlt | heq | hgt
  · simp [Nat.compare_eq_lt.2 hlt, hlt]
  · rcases Nat.lt_trichotomy s.literals t.literals with hlt' | heq' | hgt'
    · simp [Nat.compare_eq_lt.2 hlt', heq, hlt']
    · simp [heq, heq']
    · have : ¬ s.literals < t.literals ∧ ¬ s.literals = t.literals := by omega
      simp [Nat.compare_eq_gt.2 hgt', heq, this]
  · have : ¬ s.length < t.length ∧ ¬ s.length = t.length := by omega
    simp [Nat.compare_eq_gt.2 hgt, this]

theorem isLE_compareCost_append (s t : Selection) : (compareCost s (s ++ t)).isLE := by
  rw [isLE_compareCost_iff]
  cases t with
  | nil => simp
  | cons c t => simp

/-- A common part does not change how two selections compare. -/
theorem compareCost_append (cs s t : Selection) :
    compareCost (cs ++ s) (cs ++ t) = compareCost s t := by
  have hlength : compare (cs ++ s).length (cs ++ t).length = compare s.length t.length := by
    rw [List.length_append, List.length_append]
    simp only [Nat.compare_eq_ite_lt]
    simp
  have hliterals : compare (cs ++ s).literals (cs ++ t).literals =
      compare s.literals t.literals := by
    rw [literals_append, literals_append]
    simp only [Nat.compare_eq_ite_lt]
    simp
  unfold compareCost
  rw [hlength, hliterals]
  by_cases h : s.length = t.length
  · rw [terms_eq_ascending, terms_eq_ascending, List.map_append, List.map_append,
      compare_ascending_append _ (by simpa using h)]
    rfl
  · have hne : compare s.length t.length ≠ .eq := by
      simpa using h
    cases hcmp : compare s.length t.length with
    | eq => exact absurd hcmp hne
    | lt => rfl
    | gt => rfl

end Selection

namespace CoverSearch

/-! ### The greedy selection -/

theorem hits_ne_zero_iff {clauses : List Clause} {c : Candidate} :
    hits clauses c ≠ 0 ↔ ∃ clause ∈ clauses, c ∈ clause := by
  unfold hits
  rw [Nat.ne_zero_iff_zero_lt, List.countP_pos_iff]
  simp

theorem mem_without {c : Candidate} {clauses : List Clause} {clause : Clause} :
    clause ∈ without c clauses ↔ clause ∈ clauses ∧ c ∉ clause := by
  unfold without
  simp

theorem length_without_lt {c : Candidate} {clauses : List Clause} {clause : Clause}
    (hclause : clause ∈ clauses) (hc : c ∈ clause) :
    (without c clauses).length < clauses.length := by
  unfold without
  rw [List.length_filter_lt_length_iff_exists]
  exact ⟨clause, hclause, by simpa using hc⟩

theorem foldl_pick_mem (best : Nat × Candidate) (rest : List (Nat × Candidate)) :
    rest.foldl (fun best c => if isBetterPick c best then c else best) best ∈ best :: rest := by
  induction rest generalizing best with
  | nil => simp
  | cons c rest ih =>
    rw [List.foldl_cons]
    have hmem := ih (if isBetterPick c best then c else best)
    rcases List.mem_cons.1 hmem with heq | hrest
    · rw [heq]
      split <;> simp
    · exact List.mem_cons_of_mem _ (List.mem_cons_of_mem _ hrest)

/-- A greedy choice is one of the candidates and belongs to some clause. -/
theorem mem_of_pick?_eq_some {all : Selection} {clauses : List Clause} {c : Candidate}
    (h : pick? all clauses = some c) : c ∈ all ∧ ∃ clause ∈ clauses, c ∈ clause := by
  unfold pick? at h
  dsimp only at h
  split at h
  · simp at h
  · next first rest hscored =>
    obtain rfl : _ = c := Option.some.inj h
    have hmem := foldl_pick_mem first rest
    rw [← hscored, List.mem_filter, List.mem_map] at hmem
    obtain ⟨⟨d, hd, heq⟩, hhits⟩ := hmem
    rw [← heq] at hhits ⊢
    exact ⟨hd, hits_ne_zero_iff.1 (by simpa using hhits)⟩

theorem not_mem_of_pick?_eq_none {all : Selection} {clauses : List Clause}
    (h : pick? all clauses = none) {c : Candidate} (hc : c ∈ all) {clause : Clause}
    (hclause : clause ∈ clauses) : c ∉ clause := by
  unfold pick? at h
  dsimp only at h
  split at h
  · next hscored =>
    intro hmem
    have hhits : hits clauses c ≠ 0 := hits_ne_zero_iff.2 ⟨clause, hclause, hmem⟩
    have hzero := List.filter_eq_nil_iff.1 hscored _ (List.mem_map_of_mem hc)
    exact hzero (by simpa using hhits)
  · simp at h

theorem mem_of_mem_greedyRounds {all : Selection} {rounds : Nat} {clauses : List Clause}
    {c : Candidate} (h : c ∈ greedyRounds all rounds clauses) :
    c ∈ all ∧ ∃ clause ∈ clauses, c ∈ clause := by
  induction rounds generalizing clauses with
  | zero => simp [greedyRounds] at h
  | succ rounds ih =>
    rw [greedyRounds] at h
    split at h
    · simp at h
    · next d hpick =>
      rcases List.mem_cons.1 h with rfl | hrest
      · exact mem_of_pick?_eq_some hpick
      · obtain ⟨hall, clause, hclause, hmem⟩ := ih hrest
        exact ⟨hall, clause, (mem_without.1 hclause).1, hmem⟩

/-- No candidate is chosen twice: its clauses are closed after the first time. -/
theorem nodup_greedyRounds (all : Selection) (rounds : Nat) (clauses : List Clause) :
    (greedyRounds all rounds clauses).Nodup := by
  induction rounds generalizing clauses with
  | zero => simp [greedyRounds]
  | succ rounds ih =>
    rw [greedyRounds]
    split
    · simp
    · next c _ =>
      refine List.nodup_cons.2 ⟨?_, ih _⟩
      intro hmem
      obtain ⟨_, clause, hclause, hc⟩ := mem_of_mem_greedyRounds hmem
      exact (mem_without.1 hclause).2 hc

/-- Enough greedy choices close every clause that offers a candidate. -/
theorem greedyRounds_covers {all : Selection} {rounds : Nat} {clauses : List Clause}
    (hrounds : clauses.length ≤ rounds) {clause : Clause} (hclause : clause ∈ clauses)
    (hoffer : ∃ c ∈ clause, c ∈ all) :
    ∃ c ∈ clause, c ∈ greedyRounds all rounds clauses := by
  induction rounds generalizing clauses with
  | zero =>
    obtain rfl : clauses = [] := List.length_eq_zero_iff.1 (Nat.le_zero.1 hrounds)
    simp at hclause
  | succ rounds ih =>
    rw [greedyRounds]
    split
    · next hpick =>
      obtain ⟨c, hc, hall⟩ := hoffer
      exact absurd hc (not_mem_of_pick?_eq_none hpick hall hclause)
    · next d hpick =>
      -- the choice closes this clause, or it closes another one and a round is left for it
      by_cases hd : d ∈ clause
      · exact ⟨d, hd, by simp⟩
      · obtain ⟨_, hit, hhit, hdhit⟩ := mem_of_pick?_eq_some hpick
        have hlt := length_without_lt hhit hdhit
        obtain ⟨c, hc, hmem⟩ := ih (by omega) (mem_without.2 ⟨hclause, hd⟩)
        exact ⟨c, hc, List.mem_cons_of_mem _ hmem⟩

theorem length_greedyRounds_le (all : Selection) (rounds : Nat) (clauses : List Clause) :
    (greedyRounds all rounds clauses).length ≤ rounds := by
  induction rounds generalizing clauses with
  | zero => simp [greedyRounds]
  | succ rounds ih =>
    rw [greedyRounds]
    split
    · simp
    · exact Nat.succ_le_succ (ih _)

theorem mem_of_mem_greedy {all : Selection} {clauses : List Clause} {c : Candidate}
    (h : c ∈ greedy all clauses) : c ∈ all ∧ ∃ clause ∈ clauses, c ∈ clause :=
  mem_of_mem_greedyRounds h

theorem nodup_greedy (all : Selection) (clauses : List Clause) :
    (greedy all clauses).Nodup :=
  nodup_greedyRounds all clauses.length clauses

/-- The greedy selection has a candidate of every clause that offers one. -/
theorem greedy_covers {all : Selection} {clauses : List Clause} {clause : Clause}
    (hclause : clause ∈ clauses) (hoffer : ∃ c ∈ clause, c ∈ all) :
    ∃ c ∈ clause, c ∈ greedy all clauses :=
  greedyRounds_covers (Nat.le_refl _) hclause hoffer

end CoverSearch

end RulePaths
