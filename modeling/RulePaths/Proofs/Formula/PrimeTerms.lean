import RulePaths.Proofs.Formula.Rows
import RulePaths.Proofs.Formula.Terms

/-!
# Prime terms of a boolean function

A term implies a boolean function if the function is true whenever the term is. A term that
ceases to do so when any of its literals is left out is prime. Every term that implies the
function contains a prime one, so any sum of products can be turned into one of prime terms
without more terms or more literals. Which terms are prime depends on the function only, not on
the domain in which they are sought.

## Main definitions

- `Term.Implies`, `Term.IsPrime` — a term is a term, or a prime term, of a boolean function
- `Term.Replaces` — prime terms in the place of a sum of products

## Main results

- `Term.exists_isPrime_sublist` — every term of a function contains a prime one
- `Term.IsPrime.index_mem_mentions` — the prime terms of an expression mention attributes of it
- `Term.exists_replaces` — a sum of products is turned into one of prime terms
-/

namespace RulePaths

namespace Term

/-! ### Terms that imply a function -/

/-- The function is true under all assignments that make the term true. -/
def Implies (f : Assignment → Bool) (t : Term) : Prop :=
  ∀ v, t.eval v = true → f v = true

/-- A term that implies a function and ceases to if any literal is left out. -/
structure IsPrime (f : Assignment → Bool) (t : Term) : Prop where
  ascending : t.Ascending
  implies : t.Implies f
  not_implies_erase : ∀ l ∈ t, ¬ Implies f (t.erase l)

/-- Every term that implies a function contains a prime one. -/
theorem exists_isPrime_sublist {f : Assignment → Bool} {t : Term} (hasc : t.Ascending)
    (himplies : t.Implies f) : ∃ p : Term, p.Sublist t ∧ p.IsPrime f := by
  induction hlength : t.length generalizing t with
  | zero =>
    refine ⟨t, .refl t, hasc, himplies, ?_⟩
    rw [List.length_eq_zero_iff.1 hlength]
    exact fun l hl => absurd hl List.not_mem_nil
  | succ n ih =>
    -- either some literal can be left out, and the shorter term has the claim, or none can
    by_cases hprime : ∃ l ∈ t, Implies f (t.erase l)
    · obtain ⟨l, hl, herase⟩ := hprime
      have hsub : (t.erase l).Sublist t := List.erase_sublist
      obtain ⟨p, hp, hpPrime⟩ := ih (hasc.sublist hsub) herase (by
        rw [List.length_erase_of_mem hl, hlength, Nat.add_sub_cancel])
      exact ⟨p, hp.trans hsub, hpPrime⟩
    · push Not at hprime
      exact ⟨t, .refl t, hasc, himplies, hprime⟩

/-- A function depends on every attribute that a prime term of it mentions. -/
theorem IsPrime.exists_ne {f : Assignment → Bool} {t : Term} (h : t.IsPrime f) {l : Literal}
    (hl : l ∈ t) : ∃ v w : Assignment, (∀ a, a ≠ l.index → v a = w a) ∧ f v ≠ f w := by
  have herase := h.not_implies_erase l hl
  unfold Implies at herase
  push Not at herase
  obtain ⟨v, hrest, hfalse⟩ := herase
  -- making the literal true makes the whole term true, and with it the function
  refine ⟨v, Function.update v l.index (!l.negated), fun a ha => ?_, fun heq => ?_⟩
  · rw [Function.update_of_ne ha]
  · apply hfalse
    rw [heq]
    apply h.implies
    rw [eval_iff]
    intro k hk
    by_cases hkl : k = l
    · subst hkl
      simp [Literal.eval]
    · have hindex : k.index ≠ l.index := fun heq => hkl (h.ascending.eq_of_index_eq hk hl heq)
      have hkv := eval_iff.1 hrest k ((List.mem_erase_of_ne hkl).2 hk)
      rwa [Literal.eval, Function.update_of_ne hindex]

theorem IsPrime.index_mem_mentions {e : Expr} {t : Term} (h : t.IsPrime fun v => e.eval v)
    {l : Literal} (hl : l ∈ t) : l.index ∈ e.mentions := by
  obtain ⟨v, w, hagree, hne⟩ := h.exists_ne hl
  by_contra hnot
  apply hne
  exact Expr.eval_congr e fun a ha => hagree a fun heq => hnot (heq ▸ ha)

/-- If an expression is true under an assignment then so is some prime term of it. -/
theorem exists_isPrime_eval {e : Expr} {v : Assignment} (h : e.eval v = true) :
    ∃ p : Term, p.IsPrime (fun w => e.eval w) ∧ p.eval v = true := by
  -- the term of all attributes is true under assignments that agree with `v` on them
  let full : Term := (Domain.ofExpr e).attributes.map fun a => ⟨a, !v a⟩
  have hasc : full.Ascending := List.pairwise_map.2 (Domain.ofExpr e).ascending
  have hself : full.eval v = true := by
    rw [eval_iff]
    intro l hl
    obtain ⟨a, _, rfl⟩ := List.mem_map.1 hl
    exact (Literal.eval_mk v a (v a)).2 rfl
  have himplies : full.Implies fun w => e.eval w := by
    intro w hw
    show e.eval w = true
    rw [← h]
    refine Expr.eval_congr e fun a ha => (Literal.eval_mk w a (v a)).1 (eval_iff.1 hw _ ?_)
    exact List.mem_map_of_mem (Domain.mem_ofExpr.2 ha)
  obtain ⟨p, hp, hprime⟩ := exists_isPrime_sublist hasc himplies
  exact ⟨p, hprime, eval_of_sublist hp hself⟩

/-! ### Sums of prime terms -/

/-- A set of literals that can be true and implies a function is replaced by a prime term. -/
theorem exists_isPrime_of_set {f : Assignment → Bool} {t : Finset Literal}
    (hsat : ∃ v, ∀ l ∈ t, l.eval v = true)
    (himplies : ∀ v, (∀ l ∈ t, l.eval v = true) → f v = true) :
    ∃ p : Term, p.IsPrime f ∧ p.length ≤ t.card ∧
      ∀ v, (∀ l ∈ t, l.eval v = true) → p.eval v = true := by
  obtain ⟨v, hv⟩ := hsat
  obtain ⟨s, hasc, hmem, hcard⟩ := exists_ascending hv
  have heval : ∀ w, s.eval w = true ↔ ∀ l ∈ t, l.eval w = true := by
    intro w
    simp only [eval_iff, hmem]
  obtain ⟨p, hp, hprime⟩ := exists_isPrime_sublist hasc fun w hw => himplies w ((heval w).1 hw)
  exact ⟨p, hprime, hcard ▸ hp.length_le, fun w hw => eval_of_sublist hp ((heval w).2 hw)⟩

/-- Distinct prime terms of a function in the place of a sum of products: no more terms, no more
    literals in total, and one of them is true whenever a term of the sum is. -/
structure Replaces (f : Assignment → Bool) (ts : List (Finset Literal)) (us : List Term) :
    Prop where
  nodup : us.Nodup
  isPrime : ∀ u ∈ us, u.IsPrime f
  exists_eval : ∀ v, ∀ t ∈ ts, (∀ l ∈ t, l.eval v = true) → ∃ u ∈ us, u.eval v = true
  length_le : us.length ≤ ts.length
  literals_le : (us.map List.length).sum ≤ (ts.map Finset.card).sum

section Replaces

variable {f : Assignment → Bool} {t : Finset Literal} {ts : List (Finset Literal)}
variable {us : List Term}

/-- A term of the sum needs no prime term of its own if some are true whenever it is. -/
theorem Replaces.skip (h : Replaces f ts us)
    (ht : ∀ v, (∀ l ∈ t, l.eval v = true) → ∃ u ∈ us, u.eval v = true) :
    Replaces f (t :: ts) us where
  nodup := h.nodup
  isPrime := h.isPrime
  exists_eval v := List.forall_mem_cons.2 ⟨ht v, h.exists_eval v⟩
  length_le := Nat.le_succ_of_le h.length_le
  literals_le := by
    rw [List.map_cons, List.sum_cons]
    exact Nat.le_add_left_of_le h.literals_le

theorem Replaces.cons (h : Replaces f ts us) {p : Term} (hp : p.IsPrime f) (hnot : p ∉ us)
    (hcard : p.length ≤ t.card) (ht : ∀ v, (∀ l ∈ t, l.eval v = true) → p.eval v = true) :
    Replaces f (t :: ts) (p :: us) where
  nodup := List.nodup_cons.2 ⟨hnot, h.nodup⟩
  isPrime := List.forall_mem_cons.2 ⟨hp, h.isPrime⟩
  exists_eval v := by
    refine List.forall_mem_cons.2 ⟨fun hv => ⟨p, List.mem_cons_self, ht v hv⟩, fun s hs hv => ?_⟩
    obtain ⟨u, hu, huv⟩ := h.exists_eval v s hs hv
    exact ⟨u, List.mem_cons_of_mem _ hu, huv⟩
  length_le := Nat.succ_le_succ h.length_le
  literals_le := by
    rw [List.map_cons, List.map_cons, List.sum_cons, List.sum_cons]
    exact Nat.add_le_add hcard h.literals_le

/-- Every sum of terms that imply a function is replaced by prime terms. -/
theorem exists_replaces
    (h : ∀ t ∈ ts, ∀ v, (∀ l ∈ t, l.eval v = true) → f v = true) : ∃ us, Replaces f ts us := by
  induction ts with
  | nil => exact ⟨[], List.nodup_nil, by simp, by simp, Nat.le_refl _, Nat.le_refl _⟩
  | cons t ts ih =>
    obtain ⟨us, hus⟩ := ih fun s hs => h s (List.mem_cons_of_mem _ hs)
    by_cases hsat : ∃ v, ∀ l ∈ t, l.eval v = true
    · obtain ⟨p, hp, hcard, htrue⟩ := exists_isPrime_of_set hsat (h t List.mem_cons_self)
      by_cases hpus : p ∈ us
      · exact ⟨us, hus.skip fun v hv => ⟨p, hpus, htrue v hv⟩⟩
      · exact ⟨p :: us, hus.cons hp hpus hcard htrue⟩
    · -- a set of literals that is never true is left out
      exact ⟨us, hus.skip fun v hv => absurd ⟨v, hv⟩ hsat⟩

end Replaces

end Term

end RulePaths
