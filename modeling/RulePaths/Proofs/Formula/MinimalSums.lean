import RulePaths.Formula.Minimizer
import RulePaths.Proofs.Cover.MinimalCover
import RulePaths.Proofs.Formula.PrimeExpansion
import RulePaths.Proofs.Formula.PrimeTerms

/-!
# Minimal sums of a boolean function

The minimal sum of a boolean function is the cheapest sum of its prime terms that is equivalent
to it. As the cost ends with the sequence of terms, there is only one, and since prime terms are
those of the function, it knows nothing of a domain. The cover that is built over the domain of
an expression has the terms of this sum.

## Main definitions

- `Term.compareCost` — the comparison by which sums of products are judged
- `Implicant.ofTerm` — the implicant of a term over the attributes of a domain
- `IsPrimeSum` — distinct prime terms, one of which is true whenever the function is
- `IsMinimalSum` — the ascending one of least cost

## Main results

- `IsMinimalSum.unique` — a function has at most one minimal sum
- `IsMinimalSum.le_of_equivalent` — no equivalent sum of products has fewer terms, or as many
  and fewer literals
- `Implicant.isPrime_literals` — prime implicants over a domain are the prime terms
- `Minimizer.isMinimalSum_cover` — the cover of a table is the minimal sum of its expression
-/

namespace RulePaths

open Std

namespace Term

/-- The comparison of sums of products by number of terms, then by the total number of literals,
    then by the ascending sequence of terms. -/
def compareCost (ts us : List Term) : Ordering :=
  (compare ts.length us.length).then
    ((compare (ts.map List.length).sum (us.map List.length).sum).then
      (compare (ascending ts) (ascending us)))

instance : TransCmp compareCost :=
  inferInstanceAs (TransCmp (compareLex (compareOn List.length)
    (compareLex (compareOn fun ts => (ts.map List.length).sum) (compareOn ascending))))

theorem compareCost_congr_right {ts us us' : List Term} (h : us.Perm us') :
    compareCost ts us = compareCost ts us' := by
  unfold compareCost
  rw [h.length_eq, (h.map _).sum_nat, ascending_eq_of_perm h]

theorem le_of_isLE_compareCost {ts us : List Term} (h : (compareCost ts us).isLE) :
    ts.length ≤ us.length ∧
      (ts.length = us.length → (ts.map List.length).sum ≤ (us.map List.length).sum) := by
  unfold compareCost at h
  refine ⟨Nat.isLE_compare.1 (Ordering.isLE_left_of_isLE_then h), fun heq => ?_⟩
  rw [Nat.compare_eq_eq.2 heq, Ordering.eq_then] at h
  exact Nat.isLE_compare.1 (Ordering.isLE_left_of_isLE_then h)

end Term

/-- Distinct prime terms of a function, one of which is true whenever the function is. -/
structure IsPrimeSum (f : Assignment → Bool) (ts : List Term) : Prop where
  nodup : ts.Nodup
  isPrime : ∀ t ∈ ts, t.IsPrime f
  exists_eval : ∀ v, f v = true → ∃ t ∈ ts, t.eval v = true

/-- The ascending sum of prime terms that costs least. -/
structure IsMinimalSum (f : Assignment → Bool) (ts : List Term) : Prop extends
    IsPrimeSum f ts where
  ascending : ts.Pairwise fun s t => (compare s t).isLE
  isLE : ∀ us, IsPrimeSum f us → (Term.compareCost ts us).isLE

theorem IsPrimeSum.any_eval {f : Assignment → Bool} {ts : List Term} (h : IsPrimeSum f ts)
    (v : Assignment) : ts.any (Term.eval v) = f v := by
  rw [Bool.eq_iff_iff, List.any_eq_true]
  constructor
  · rintro ⟨t, ht, htv⟩
    exact (h.isPrime t ht).implies v htv
  · exact h.exists_eval v

/-- A function has at most one minimal sum. -/
theorem IsMinimalSum.unique {f : Assignment → Bool} {ts us : List Term}
    (hts : IsMinimalSum f ts) (hus : IsMinimalSum f us) : ts = us := by
  have hcost : Term.compareCost ts us = .eq :=
    OrientedCmp.isLE_antisymm (hts.isLE us hus.toIsPrimeSum) (hus.isLE ts hts.toIsPrimeSum)
  have hascending : compare (RulePaths.ascending ts) (RulePaths.ascending us) = .eq :=
    (Ordering.then_eq_eq.1 (Ordering.then_eq_eq.1 hcost).2).2
  have heq := LawfulEqOrd.eq_of_compare hascending
  rwa [ascending_of_pairwise hts.ascending, ascending_of_pairwise hus.ascending] at heq

/-- No equivalent sum of products, be its terms prime or not, has fewer terms than the minimal
    sum, or as many terms and fewer literals. -/
theorem IsMinimalSum.le_of_equivalent {f : Assignment → Bool} {ts : List Term}
    (h : IsMinimalSum f ts) {us : List (Finset Literal)}
    (hus : ∀ v, f v = true ↔ ∃ u ∈ us, ∀ l ∈ u, l.eval v = true) :
    ts.length ≤ us.length ∧
      (ts.length = us.length → (ts.map List.length).sum ≤ (us.map Finset.card).sum) := by
  obtain ⟨ps, hreplaces⟩ : ∃ ps, Term.Replaces f us ps :=
    Term.exists_replaces fun u hu v hv => (hus v).2 ⟨u, hu, hv⟩
  have hps : IsPrimeSum f ps := by
    refine ⟨hreplaces.nodup, hreplaces.isPrime, fun v hv => ?_⟩
    obtain ⟨u, hu, huv⟩ := (hus v).1 hv
    exact hreplaces.exists_eval v u hu huv
  -- the minimal sum costs no more than `ps`, which is no larger than the given sum
  obtain ⟨hle, htie⟩ := Term.le_of_isLE_compareCost (h.isLE ps hps)
  refine ⟨Nat.le_trans hle hreplaces.length_le, fun heq => ?_⟩
  have hlength : ts.length = ps.length :=
    Nat.le_antisymm hle (heq ▸ hreplaces.length_le)
  exact Nat.le_trans (htie hlength) hreplaces.literals_le

/-! ### Prime implicants and prime terms -/

namespace Implicant

/-- Giving up a position leaves out the literal that stands there. -/
theorem literals_drop {d : Domain} {i : Implicant} (h : i.Within d.size) {p : Nat}
    (hp : i.care.testBit p = true) :
    (i.drop p).literals d = (i.literals d).erase ⟨d.attributeAt p, !i.value.testBit p⟩ := by
  have hasc := literals_ascending d i
  refine (literals_ascending d (i.drop p)).eq_of_mem_iff (hasc.sublist List.erase_sublist) ?_
  intro l
  rw [hasc.nodup.mem_erase_iff, mem_literals (h.drop p), mem_literals h]
  constructor
  · rintro ⟨q, hq, rfl⟩
    rw [testBit_care_drop, Bool.and_eq_true, decide_eq_true_iff] at hq
    obtain ⟨hcare, hne⟩ := hq
    have hvalue : (i.drop p).value.testBit q = i.value.testBit q := by
      simp [testBit_value_drop, hne]
    refine ⟨fun heq => hne ?_, q, hcare, by rw [hvalue]⟩
    exact Domain.attributeAt_inj (h.lt_of_care hcare) (h.lt_of_care hp)
      (congrArg Literal.index heq)
  · rintro ⟨hnot, q, hcare, rfl⟩
    have hne : q ≠ p := by
      rintro rfl
      exact hnot rfl
    refine ⟨q, ?_, ?_⟩
    · simp [testBit_care_drop, hcare, hne]
    · simp [testBit_value_drop, hne]

/-- The implicant of a term over the attributes of a domain. -/
def ofTerm (d : Domain) (t : Term) : Implicant where
  value := Nat.ofBits fun p : Fin d.size => t.contains ⟨d.attributeAt p, false⟩
  care := Nat.ofBits fun p : Fin d.size => t.any fun l => l.index == d.attributeAt p

section OfTerm

variable {d : Domain} {t : Term} {p : Nat}

theorem testBit_care_ofTerm (hp : p < d.size) :
    (ofTerm d t).care.testBit p = true ↔ ∃ l ∈ t, l.index = d.attributeAt p := by
  simp [ofTerm, Nat.testBit_ofBits_lt _ p hp]

theorem testBit_value_ofTerm (hp : p < d.size) :
    (ofTerm d t).value.testBit p = true ↔ ⟨d.attributeAt p, false⟩ ∈ t := by
  simp [ofTerm, Nat.testBit_ofBits_lt _ p hp]

theorem within_ofTerm (d : Domain) (t : Term) : (ofTerm d t).Within d.size where
  care_lt := Nat.ofBits_lt_two_pow _
  value_and_care := by
    apply Nat.eq_of_testBit_eq
    intro p
    rw [Nat.testBit_and, Bool.and_eq_left_iff_imp]
    intro hp
    have hlt : p < d.size := lt_of_testBit (Nat.ofBits_lt_two_pow _) hp
    exact (testBit_care_ofTerm hlt).2 ⟨_, (testBit_value_ofTerm hlt).1 hp, rfl⟩

/-- The sign of a literal is the value of its position, as no attribute occurs twice. -/
theorem eq_of_mem_ofTerm (hasc : t.Ascending) {l : Literal} (hl : l ∈ t) (hp : p < d.size)
    (hindex : l.index = d.attributeAt p) :
    l = ⟨d.attributeAt p, !(ofTerm d t).value.testBit p⟩ := by
  obtain ⟨a, negated⟩ := l
  obtain rfl : a = d.attributeAt p := hindex
  cases hbit : (ofTerm d t).value.testBit p with
  | true => exact hasc.eq_of_index_eq hl ((testBit_value_ofTerm hp).1 hbit) rfl
  | false =>
    cases negated with
    | true => rfl
    | false =>
      rw [(testBit_value_ofTerm hp).2 hl] at hbit
      exact absurd hbit.symm Bool.false_ne_true

/-- Every ascending term over the attributes of a domain is the term of its implicant. -/
theorem literals_ofTerm (hasc : t.Ascending) (hmem : ∀ l ∈ t, l.index ∈ d.attributes) :
    (ofTerm d t).literals d = t := by
  refine (literals_ascending d _).eq_of_mem_iff hasc fun l => ?_
  rw [mem_literals (within_ofTerm d t)]
  constructor
  · rintro ⟨p, hp, rfl⟩
    have hlt := (within_ofTerm d t).lt_of_care hp
    obtain ⟨l, hl, hindex⟩ := (testBit_care_ofTerm hlt).1 hp
    exact eq_of_mem_ofTerm hasc hl hlt hindex ▸ hl
  · intro hl
    obtain ⟨p, hp, heq⟩ := Domain.exists_attributeAt_eq (hmem l hl)
    exact ⟨p, (testBit_care_ofTerm hp).2 ⟨l, hl, heq.symm⟩,
      eq_of_mem_ofTerm hasc hl hp heq.symm⟩

end OfTerm

variable {e : Expr} {i : Implicant}

/-- An implicant covers minterms only if and only if its term implies the expression. -/
theorem implies_literals (h : i.Within (Domain.ofExpr e).size) :
    Term.Implies (fun v => e.eval v) (i.literals (Domain.ofExpr e)) ↔
      i.Implies (Domain.ofExpr e).size (TruthTable.ofExpr e).minterms := by
  constructor
  · intro himplies
    refine ⟨h, fun row hrow hcovers => TruthTable.mem_minterms.2 ⟨hrow, himplies _ ?_⟩⟩
    rwa [eval_literals h, Domain.row_assignment hrow]
  · intro himplies v hv
    rw [eval_literals h] at hv
    exact TruthTable.row_mem_minterms.1 (himplies.mem_of_covers _ (Domain.row_lt _ v) hv)

/-- The prime implicants of the minterms are the implicants whose terms are prime. -/
theorem isPrime_literals (h : i.Within (Domain.ofExpr e).size) :
    Term.IsPrime (fun v => e.eval v) (i.literals (Domain.ofExpr e)) ↔
      i.IsPrime (Domain.ofExpr e).size (TruthTable.ofExpr e).minterms := by
  constructor
  · intro hprime
    refine ⟨(implies_literals h).1 hprime.implies, fun p hp hdrop => ?_⟩
    apply hprime.not_implies_erase _ ((mem_literals h).2 ⟨p, hp, rfl⟩)
    rw [← literals_drop h hp]
    exact (implies_literals (h.drop p)).2 hdrop
  · intro hprime
    refine ⟨literals_ascending _ i, (implies_literals h).2 hprime.toImplies,
      fun l hl herase => ?_⟩
    obtain ⟨p, hp, rfl⟩ := (mem_literals h).1 hl
    rw [← literals_drop h hp] at herase
    exact hprime.not_implies_drop p hp ((implies_literals (h.drop p)).1 herase)

/-- The terms of the primes of a table are the prime terms of its expression. -/
theorem isPrime_iff_exists_literals_eq {t : Term} :
    t.IsPrime (fun v => e.eval v) ↔
      ∃ i ∈ (TruthTable.ofExpr e).primes, i.literals (Domain.ofExpr e) = t := by
  constructor
  · intro hprime
    have hterm : (ofTerm (Domain.ofExpr e) t).literals (Domain.ofExpr e) = t :=
      literals_ofTerm hprime.ascending fun l hl =>
        Domain.mem_ofExpr.2 (hprime.index_mem_mentions hl)
    refine ⟨ofTerm (Domain.ofExpr e) t, TruthTable.mem_primes.2 ?_, hterm⟩
    rw [← isPrime_literals (within_ofTerm _ t), hterm]
    exact hprime
  · rintro ⟨i, hi, rfl⟩
    have hprime := TruthTable.mem_primes.1 hi
    exact (isPrime_literals hprime.toWithin).2 hprime

theorem eq_of_literals_eq {d : Domain} {i j : Implicant} (hi : i.Within d.size)
    (hj : j.Within d.size) (hd : d.size ≤ Domain.width) (h : i.literals d = j.literals d) :
    i = j := by
  apply eq_of_compare_eq (hi.mono hd) (hj.mono hd)
  rw [← compare_literals hi hj hd, h]
  exact ReflOrd.compare_self

theorem compareCost_literals {d : Domain} {is js : List Implicant}
    (his : ∀ i ∈ is, i.Within d.size) (hjs : ∀ j ∈ js, j.Within d.size)
    (hd : d.size ≤ Domain.width) :
    Term.compareCost (is.map (literals · d)) (js.map (literals · d)) = compareCost is js := by
  have hsum : ∀ ks : List Implicant, (∀ k ∈ ks, k.Within d.size) →
      ((ks.map (literals · d)).map List.length).sum = (ks.map literalCount).sum := by
    intro ks hks
    rw [List.map_map]
    exact congrArg List.sum (List.map_congr_left fun k hk => length_literals (hks k hk) hd)
  have hsort : ∀ ks : List Implicant, (∀ k ∈ ks, k.Within d.size) →
      ascending (ks.map (literals · d)) = (sort ks).map (literals · d) := fun ks hks =>
    (map_ascending fun i hi j hj => compare_literals (hks i hi) (hks j hj) hd).symm
  unfold Term.compareCost compareCost
  rw [List.length_map, List.length_map, hsum is his, hsum js hjs, hsort is his, hsort js hjs,
    compare_map]
  intro i hi j hj
  exact compare_literals (his i ((sort_perm is).subset hi)) (hjs j ((sort_perm js).subset hj)) hd

end Implicant

namespace Minimizer

variable {e : Expr}

/-- Some primes cover the minterms if and only if one of their terms is true whenever the
    expression is. -/
theorem covers_minterms_iff {is : List Implicant}
    (his : ∀ i ∈ is, i.Within (Domain.ofExpr e).size) :
    Covers is (TruthTable.ofExpr e).minterms ↔
      ∀ v, e.eval v = true → ∃ i ∈ is, Term.eval v (i.literals (Domain.ofExpr e)) = true := by
  constructor
  · intro hcovers v hv
    obtain ⟨i, hi, hrow⟩ := hcovers _ (TruthTable.row_mem_minterms.2 hv)
    exact ⟨i, hi, by rwa [Implicant.eval_literals (his i hi)]⟩
  · intro heval row hrow
    obtain ⟨hlt, htrue⟩ := TruthTable.mem_minterms.1 hrow
    obtain ⟨i, hi, hiv⟩ := heval _ htrue
    rw [Implicant.eval_literals (his i hi), Domain.row_assignment hlt] at hiv
    exact ⟨i, hi, hiv⟩

theorem within_of_mem_primes {i : Implicant} (hi : i ∈ (TruthTable.ofExpr e).primes) :
    i.Within (Domain.ofExpr e).size :=
  (TruthTable.mem_primes.1 hi).toWithin

theorem primes_covers (e : Expr) :
    Covers (TruthTable.ofExpr e).primes (TruthTable.ofExpr e).minterms := by
  rw [covers_minterms_iff fun i hi => within_of_mem_primes hi]
  intro v hv
  obtain ⟨p, hp, hpv⟩ := Term.exists_isPrime_eval hv
  obtain ⟨i, hi, rfl⟩ := Implicant.isPrime_iff_exists_literals_eq.1 hp
  exact ⟨i, hi, hpv⟩

theorem nodup_map_literals {is : List Implicant} (hnodup : is.Nodup)
    (his : ∀ i ∈ is, i.Within (Domain.ofExpr e).size)
    (hsize : (Domain.ofExpr e).size ≤ Domain.width) :
    (is.map (Implicant.literals · (Domain.ofExpr e))).Nodup := by
  refine hnodup.map_on fun i hi j hj heq => ?_
  exact Implicant.eq_of_literals_eq (his i hi) (his j hj) hsize heq

/-- Every sum of prime terms is, in some order, the terms of distinct primes that cover the
    minterms. -/
theorem exists_primes_of_isPrimeSum {us : List Term} (hus : IsPrimeSum (fun v => e.eval v) us)
    (hsize : (Domain.ofExpr e).size ≤ Domain.width) :
    ∃ is : List Implicant, is.Sublist (TruthTable.ofExpr e).primes ∧
      Covers is (TruthTable.ofExpr e).minterms ∧
      (is.map (Implicant.literals · (Domain.ofExpr e))).Perm us := by
  let is := (TruthTable.ofExpr e).primes.filter fun i =>
    us.contains (i.literals (Domain.ofExpr e))
  have hsub : is.Sublist (TruthTable.ofExpr e).primes := List.filter_sublist
  have hwithin : ∀ i ∈ is, i.Within (Domain.ofExpr e).size :=
    fun i hi => within_of_mem_primes (hsub.subset hi)
  have hmem : ∀ u ∈ us, ∃ i ∈ is, i.literals (Domain.ofExpr e) = u := by
    intro u hu
    obtain ⟨i, hi, rfl⟩ := Implicant.isPrime_iff_exists_literals_eq.1 (hus.isPrime u hu)
    exact ⟨i, List.mem_filter.2 ⟨hi, List.contains_iff_mem.2 hu⟩, rfl⟩
  refine ⟨is, hsub, ?_, ?_⟩
  · rw [covers_minterms_iff hwithin]
    intro v hv
    obtain ⟨u, hu, huv⟩ := hus.exists_eval v hv
    obtain ⟨i, hi, rfl⟩ := hmem u hu
    exact ⟨i, hi, huv⟩
  · -- neither list has repeats, so the same terms are a permutation
    have hnodup := nodup_map_literals ((TruthTable.nodup_primes e).sublist hsub) hwithin hsize
    rw [List.perm_ext_iff_of_nodup hnodup hus.nodup]
    intro u
    rw [List.mem_map]
    constructor
    · rintro ⟨i, hi, rfl⟩
      exact List.contains_iff_mem.1 (List.mem_filter.1 hi).2
    · exact hmem u

theorem terms_cover (e : Expr) :
    (cover (TruthTable.ofExpr e)).terms =
      (minimalCover (TruthTable.ofExpr e).primes (TruthTable.ofExpr e).minterms).map
        (Implicant.literals · (Domain.ofExpr e)) :=
  rfl

/-- The cover of the table of an expression is the minimal sum of the expression. -/
theorem isMinimalSum_cover (hsize : (Domain.ofExpr e).size ≤ Domain.width) :
    IsMinimalSum (fun v => e.eval v) (cover (TruthTable.ofExpr e)).terms := by
  obtain ⟨hsub, hcovers⟩ := MinimalCover.minimalCover_covers (primes_covers e)
  have hwithin : ∀ i ∈ minimalCover (TruthTable.ofExpr e).primes (TruthTable.ofExpr e).minterms,
      i.Within (Domain.ofExpr e).size := fun i hi => within_of_mem_primes (hsub.subset hi)
  have hnodup : (minimalCover (TruthTable.ofExpr e).primes
      (TruthTable.ofExpr e).minterms).Nodup := by
    obtain ⟨is, hperm, his⟩ := hsub
    exact hperm.nodup_iff.1 ((TruthTable.nodup_primes e).sublist his)
  rw [terms_cover]
  refine ⟨⟨nodup_map_literals hnodup hwithin hsize, ?_, ?_⟩, ?_, ?_⟩
  · intro t ht
    obtain ⟨i, hi, rfl⟩ := List.mem_map.1 ht
    exact Implicant.isPrime_iff_exists_literals_eq.2 ⟨i, hsub.subset hi, rfl⟩
  · intro v hv
    obtain ⟨i, hi, hiv⟩ := (covers_minterms_iff hwithin).1 hcovers v hv
    exact ⟨_, List.mem_map_of_mem hi, hiv⟩
  · refine List.pairwise_map.2 ((MinimalCover.pairwise_minimalCover _ _).imp_of_mem ?_)
    intro i j hi hj hij
    rwa [Implicant.compare_literals (hwithin i hi) (hwithin j hj) hsize]
  · intro us hus
    obtain ⟨is, his, hiscovers, hperm⟩ := exists_primes_of_isPrimeSum hus hsize
    rw [← Term.compareCost_congr_right hperm, Implicant.compareCost_literals hwithin
      (fun i hi => within_of_mem_primes (his.subset hi)) hsize]
    exact MinimalCover.isLE_minimalCover his.subperm hiscovers

end Minimizer

end RulePaths
