import RulePaths.Proofs.Cover.MinimalCover
import RulePaths.Proofs.Formula.PrimeExpansion
import Mathlib.Data.Finset.Card

/-!
# Merging finds the same prime implicants

The classical way to the prime implicants of a table starts from its rows, each of them an
implicant that fixes every position, and proceeds in rounds. A round merges any two implicants of
the current set that differ in the value of one position into the implicant with this position
given up. The merged implicants make the next set, and those of the current set that were merged
with no other are prime.

The sets are hash sets: they are gone through in an order that means nothing. A traversal stands
for such an order, and whatever the traversals are, merging comes to the sorted list of all prime
implicants, which is the list that the expansion yields.

## Main definitions

- `Implicant.fix` — an implicant with one more position fixed
- `TruthTable.WellFormed` — what holds of the tables of expressions
- `Merging.Traversal` — an order in which a hash set is gone through
- `TruthTable.mergedPrimes` — the prime implicants of a table by merging

## Main results

- `Implicant.implies_iff_fix` — a position is free if it may be fixed either way
- `Merging.mem_next_round`, `Merging.mem_merged_round` — what a round makes of a set that has all
  implicants with some number of literals
- `Merging.hasPrimes_rounds` — the rounds find all prime implicants, each once
- `TruthTable.primes_spec` — the list of primes is ascending and has the prime implicants of the
  table, and merging comes to the same list
-/

namespace RulePaths

open Std

namespace Implicant

/-! ### Fixing a free position -/

/-- The implicant with one more position fixed. -/
def fix (p : Nat) (holds : Bool) (i : Implicant) : Implicant :=
  ⟨if holds then i.value ||| 1 <<< p else i.value, i.care ||| 1 <<< p⟩

theorem testBit_or_shift (x p q : Nat) :
    (x ||| 1 <<< p).testBit q = (x.testBit q || decide (q = p)) := by
  rw [Nat.testBit_or, Nat.one_shiftLeft, Nat.testBit_two_pow]
  by_cases h : p = q
  · simp [h]
  · simp [h, Ne.symm h]

theorem testBit_care_fix (i : Implicant) (p : Nat) (holds : Bool) (q : Nat) :
    (i.fix p holds).care.testBit q = (i.care.testBit q || decide (q = p)) :=
  testBit_or_shift i.care p q

theorem testBit_value_fix (i : Implicant) (p : Nat) (holds : Bool) (q : Nat) :
    (i.fix p holds).value.testBit q = (i.value.testBit q || (holds && decide (q = p))) := by
  cases holds with
  | false => simp [fix]
  | true => simpa [fix] using testBit_or_shift i.value p q

section Fix

variable {n p : Nat} {i : Implicant} {holds : Bool}

theorem Within.value_of_free (h : i.Within n) (hfree : i.care.testBit p = false) :
    i.value.testBit p = false :=
  Bool.eq_false_iff.2 fun hp => Bool.false_ne_true (hfree.symm.trans (h.care_of_value hp))

theorem Within.fix (h : i.Within n) (hp : p < n) (holds : Bool) : (i.fix p holds).Within n where
  care_lt := by
    apply Nat.lt_pow_two_of_testBit
    intro q hq
    rw [testBit_care_fix, Bool.eq_false_iff.2 fun hcare => Nat.not_lt.2 hq (h.lt_of_care hcare),
      Bool.false_or, decide_eq_false_iff_not]
    omega
  value_and_care := by
    apply Nat.eq_of_testBit_eq
    intro q
    rw [Nat.testBit_and, testBit_value_fix, testBit_care_fix]
    cases hq : i.value.testBit q with
    | true => simp [h.care_of_value hq]
    | false => cases holds <;> simp +contextual

/-- What is covered besides agrees with the position that was fixed. -/
theorem covers_fix (h : i.Within n) (hp : p < n) (hfree : i.care.testBit p = false) {row : Nat} :
    (i.fix p holds).covers row = true ↔ i.covers row = true ∧ row.testBit p = holds := by
  rw [covers_iff (h.fix hp holds), covers_iff h]
  have hvalue := h.value_of_free hfree
  constructor
  · intro hbits
    refine ⟨fun q hq => ?_, ?_⟩
    · have hne : q ≠ p := by
        rintro rfl
        exact Bool.false_ne_true (hfree.symm.trans hq)
      simpa [testBit_value_fix, hne] using hbits q (by simp [testBit_care_fix, hq])
    · simpa [testBit_value_fix, hvalue] using hbits p (by simp [testBit_care_fix])
  · rintro ⟨hbits, hrow⟩ q hq
    rw [testBit_value_fix]
    by_cases hqp : q = p
    · simp [hqp, hvalue, hrow]
    · have hcare : i.care.testBit q = true := by simpa [testBit_care_fix, hqp] using hq
      simp [hqp, hbits q hcare]

/-- An implicant may leave a position free if and only if it may be fixed either way. -/
theorem implies_iff_fix {rows : List Nat} (h : i.Within n) (hp : p < n)
    (hfree : i.care.testBit p = false) :
    i.Implies n rows ↔ ∀ holds, (i.fix p holds).Implies n rows := by
  constructor
  · intro hi holds
    refine ⟨h.fix hp holds, fun row hrow hcovers => ?_⟩
    exact hi.mem_of_covers row hrow ((covers_fix h hp hfree).1 hcovers).1
  · intro hfix
    refine ⟨h, fun row hrow hcovers => ?_⟩
    exact (hfix (row.testBit p)).mem_of_covers row hrow ((covers_fix h hp hfree).2 ⟨hcovers, rfl⟩)

theorem drop_fix (h : i.Within n) (hp : p < n) (hfree : i.care.testBit p = false) :
    (i.fix p holds).drop p = i := by
  refine ((h.fix hp holds).drop p).ext h (fun q => ?_) fun q hq => ?_
  · rw [testBit_care_drop, testBit_care_fix]
    by_cases hqp : q = p
    · simp [hqp, hfree]
    · simp [hqp]
  · rw [testBit_care_drop, Bool.and_eq_true, decide_eq_true_eq] at hq
    simp [testBit_value_drop, testBit_value_fix, hq.2]

theorem free_drop (i : Implicant) (p : Nat) : (i.drop p).care.testBit p = false := by
  simp [testBit_care_drop]

theorem fix_drop (h : i.Within n) (hcare : i.care.testBit p = true) :
    (i.drop p).fix p (i.value.testBit p) = i := by
  refine ((h.drop p).fix (h.lt_of_care hcare) _).ext h (fun q => ?_) fun q _ => ?_
  · rw [testBit_care_fix, testBit_care_drop]
    by_cases hqp : q = p
    · simp [hqp, hcare]
    · simp [hqp]
  · rw [testBit_value_fix, testBit_value_drop]
    by_cases hqp : q = p
    · simp [hqp]
    · simp [hqp]

end Fix

/-! ### Counting literals -/

theorem literalCount_eq_card (i : Implicant) :
    i.literalCount =
      ((Finset.range Domain.width).filter fun p => i.care.testBit p = true).card := by
  rw [literalCount, List.countP_eq_length_filter,
    ← List.toFinset_card_of_nodup (List.nodup_range.filter _)]
  congr 1
  ext p
  simp

theorem literalCount_fix {n p : Nat} {i : Implicant} (hn : n ≤ Domain.width) (hp : p < n)
    (hfree : i.care.testBit p = false) (holds : Bool) :
    (i.fix p holds).literalCount = i.literalCount + 1 := by
  have hinsert : ((Finset.range Domain.width).filter fun q =>
      (i.fix p holds).care.testBit q = true) =
      insert p ((Finset.range Domain.width).filter fun q => i.care.testBit q = true) := by
    ext q
    simp only [testBit_care_fix, Finset.mem_filter, Finset.mem_range, Finset.mem_insert,
      Bool.or_eq_true, decide_eq_true_eq]
    constructor
    · rintro ⟨hq, hcare | rfl⟩
      · exact .inr ⟨hq, hcare⟩
      · exact .inl rfl
    · rintro (rfl | ⟨hq, hcare⟩)
      · exact ⟨Nat.lt_of_lt_of_le hp hn, .inr rfl⟩
      · exact ⟨hq, .inl hcare⟩
  rw [literalCount_eq_card, literalCount_eq_card, hinsert,
    Finset.card_insert_of_notMem (by simp [hfree])]

theorem literalCount_drop {n p : Nat} {i : Implicant} (hn : n ≤ Domain.width) (h : i.Within n)
    (hcare : i.care.testBit p = true) : (i.drop p).literalCount + 1 = i.literalCount := by
  rw [← literalCount_fix hn (h.lt_of_care hcare) (free_drop i p) (i.value.testBit p),
    fix_drop h hcare]

theorem literalCount_le {n : Nat} {i : Implicant} (h : i.Within n) : i.literalCount ≤ n := by
  rw [literalCount_eq_card]
  calc ((Finset.range Domain.width).filter fun p => i.care.testBit p = true).card
      ≤ (Finset.range n).card :=
        Finset.card_le_card fun p hp =>
          Finset.mem_range.2 (h.lt_of_care (Finset.mem_filter.1 hp).2)
    _ = n := Finset.card_range n

/-- An implicant with less literals than positions leaves a position free. -/
theorem exists_free {n : Nat} {i : Implicant} (hn : n ≤ Domain.width) (h : i.literalCount < n) :
    ∃ p < n, i.care.testBit p = false := by
  by_contra hall
  have hcare : ∀ p < n, i.care.testBit p = true := by simpa using hall
  have hsub : Finset.range n ⊆
      (Finset.range Domain.width).filter fun p => i.care.testBit p = true := by
    intro p hp
    have hp := Finset.mem_range.1 hp
    exact Finset.mem_filter.2 ⟨Finset.mem_range.2 (Nat.lt_of_lt_of_le hp hn), hcare p hp⟩
  have hcard := Finset.card_le_card hsub
  rw [Finset.card_range, ← literalCount_eq_card] at hcard
  omega

/-- An implicant has as many literals as positions if it fixes all of them. -/
theorem literalCount_eq_iff {n : Nat} {i : Implicant} (hn : n ≤ Domain.width) (h : i.Within n) :
    i.literalCount = n ↔ ∀ p < n, i.care.testBit p = true := by
  constructor
  · intro hcount p hp
    by_contra hfree
    have hfree : i.care.testBit p = false := Bool.eq_false_iff.2 hfree
    have hle := literalCount_le (h.fix hp true)
    rw [literalCount_fix hn hp hfree, hcount] at hle
    omega
  · intro hall
    refine Nat.le_antisymm (literalCount_le h) (Nat.le_of_not_lt fun hless => ?_)
    obtain ⟨p, hp, hfree⟩ := exists_free hn hless
    exact Bool.false_ne_true (hfree.symm.trans (hall p hp))

/-- Fixing free positions one by one leads to implicants with any larger number of literals. -/
theorem Implies.exists_literalCount_eq {n m : Nat} {rows : List Nat} {i : Implicant}
    (hn : n ≤ Domain.width) (h : i.Implies n rows) (hm : m ≤ n) (hi : i.literalCount ≤ m) :
    ∃ j : Implicant, j.Implies n rows ∧ j.literalCount = m := by
  induction m, hi using Nat.le_induction with
  | base => exact ⟨i, h, rfl⟩
  | succ m _ ih =>
    obtain ⟨j, hj, rfl⟩ := ih (by omega)
    obtain ⟨p, hp, hfree⟩ := exists_free hn (Nat.lt_of_succ_le hm)
    exact ⟨j.fix p true, (implies_iff_fix hj.toWithin hp hfree).1 hj true,
      literalCount_fix hn hp hfree true⟩

/-! ### Implicants of single rows -/

theorem testBit_fullMask {d : Domain} (hd : d.size ≤ Domain.width) (p : Nat) :
    d.fullMask.testBit p = decide (p < d.size) := by
  rw [Domain.fullMask, Nat.min_eq_left hd, Nat.one_shiftLeft, Nat.testBit_two_pow_sub_one]

theorem and_fullMask {d : Domain} (hd : d.size ≤ Domain.width) {x : Nat} (hx : x < 2 ^ d.size) :
    x &&& d.fullMask = x := by
  rw [Domain.fullMask, Nat.min_eq_left hd, Nat.one_shiftLeft, Nat.and_two_pow_sub_one_eq_mod,
    Nat.mod_eq_of_lt hx]

section SingleRow

variable {d : Domain} {row : Nat} (hd : d.size ≤ Domain.width)
include hd

theorem within_ofMinterm : (ofMinterm row d).Within d.size where
  care_lt := by
    apply Nat.lt_pow_two_of_testBit
    intro p hp
    rw [ofMinterm, testBit_fullMask hd, decide_eq_false_iff_not]
    exact Nat.not_lt.2 hp
  value_and_care := by
    rw [ofMinterm, Nat.and_assoc, Nat.and_self]

theorem literalCount_ofMinterm : (ofMinterm row d).literalCount = d.size := by
  rw [literalCount_eq_iff hd (within_ofMinterm hd)]
  intro p hp
  rw [ofMinterm, testBit_fullMask hd, decide_eq_true hp]

/-- The implicant of a row covers no other row. -/
theorem covers_ofMinterm (hrow : row < 2 ^ d.size) {row' : Nat} (hrow' : row' < 2 ^ d.size) :
    (ofMinterm row d).covers row' = true ↔ row' = row := by
  rw [covers, ofMinterm, beq_iff_eq, and_fullMask hd hrow, and_fullMask hd hrow']

/-- What fixes all positions is the implicant of a row. -/
theorem eq_ofMinterm {i : Implicant} (h : i.Within d.size) (hcount : i.literalCount = d.size) :
    i = ofMinterm i.value d := by
  have hcare : ∀ p, i.care.testBit p = (ofMinterm i.value d).care.testBit p := by
    intro p
    rw [ofMinterm, testBit_fullMask hd]
    by_cases hp : p < d.size
    · rw [decide_eq_true hp, (literalCount_eq_iff hd h).1 hcount p hp]
    · rw [decide_eq_false hp, Bool.eq_false_iff]
      exact fun hbit => hp (h.lt_of_care hbit)
  refine h.ext (within_ofMinterm hd) hcare fun p hp => ?_
  rw [hcare] at hp
  have hmask : d.fullMask.testBit p = true := hp
  rw [ofMinterm, Nat.testBit_and, hmask, Bool.and_true]

end SingleRow

end Implicant

/-! ### The rounds -/

namespace Merging

open Implicant

/-- An order in which a hash set is gone through. The set is given by a list of its elements, each
once, and any rearrangement of this list is such an order. -/
structure Traversal where
  order : List Implicant → List Implicant
  perm : ∀ s, (order s).Perm s

/-- What a round has found so far: the merged implicants that make the next set, and the implicants
of the current set that were merged with some other. -/
structure Round where
  next : List Implicant
  merged : List Implicant

/-- The implicant that differs in having the bit at a position clear. -/
def partner (p : Nat) (i : Implicant) : Implicant :=
  ⟨i.value.ldiff (1 <<< p), i.care⟩

/-- An implicant is merged with its partner at a position, if the current set has the partner. -/
def Round.merge (current : List Implicant) (r : Round) (i : Implicant) (p : Nat) : Round :=
  if partner p i ∈ current then
    ⟨r.next.insert ⟨(partner p i).value, i.care.ldiff (1 <<< p)⟩,
      (r.merged.insert i).insert (partner p i)⟩
  else r

/-- The positions whose bit an implicant wants set, ascending. -/
def setPositions (i : Implicant) : List Nat :=
  (List.range Domain.width).filter i.value.testBit

/-- One round: every implicant of the current set, in some order, at each of its set positions. -/
def round (current visited : List Implicant) : Round :=
  visited.foldl (fun r i => (setPositions i).foldl (fun r p => r.merge current i p) r) ⟨[], []⟩

/-- A bound above all values of a set. -/
def valueBound (s : List Implicant) : Nat :=
  s.foldr (fun i bound => max (i.value + 1) bound) 0

theorem valueBound_le_iff {s : List Implicant} {bound : Nat} :
    valueBound s ≤ bound ↔ ∀ i ∈ s, i.value < bound := by
  induction s with
  | nil => simp [valueBound]
  | cons i s ih =>
    rw [valueBound, List.foldr_cons, ← valueBound, Nat.max_le, ih, List.forall_mem_cons,
      Nat.succ_le_iff]

theorem mem_setPositions {i : Implicant} {p : Nat} :
    p ∈ setPositions i ↔ p < Domain.width ∧ i.value.testBit p = true := by
  rw [setPositions, List.mem_filter, List.mem_range]

/-- What is merged in a round: an implicant that was visited, at a set position. -/
structure Merges (current visited : List Implicant) (i : Implicant) (p : Nat) : Prop where
  visited : i ∈ visited
  position : p < Domain.width ∧ i.value.testBit p = true
  partner : partner p i ∈ current

theorem mem_merge {current : List Implicant} {r : Round} {i x : Implicant} {p : Nat} :
    (x ∈ (r.merge current i p).next ↔ x ∈ r.next ∨ partner p i ∈ current ∧ x = i.drop p) ∧
      (x ∈ (r.merge current i p).merged ↔
        x ∈ r.merged ∨ partner p i ∈ current ∧ (x = i ∨ x = partner p i)) := by
  have hdrop : (⟨(partner p i).value, i.care.ldiff (1 <<< p)⟩ : Implicant) = i.drop p := rfl
  unfold Round.merge
  split
  · next h =>
    simp only [hdrop, List.mem_insert_iff, h, true_and]
    tauto
  · next h => simp [h]

/-- The tries of a round, in order. -/
def tries (visited : List Implicant) : List (Implicant × Nat) :=
  visited.flatMap fun i => (setPositions i).map (i, ·)

theorem round_eq_foldl (current visited : List Implicant) :
    round current visited =
      (tries visited).foldl (fun r x => r.merge current x.1 x.2) ⟨[], []⟩ := by
  rw [round, tries, List.foldl_flatMap]
  simp only [List.foldl_map]

theorem mem_foldl_merge {current : List Implicant} {x : Implicant} (xs : List (Implicant × Nat))
    (r : Round) :
    let r' := xs.foldl (fun r x => r.merge current x.1 x.2) r
    (x ∈ r'.next ↔
      x ∈ r.next ∨ ∃ y ∈ xs, partner y.2 y.1 ∈ current ∧ x = y.1.drop y.2) ∧
      (x ∈ r'.merged ↔
        x ∈ r.merged ∨ ∃ y ∈ xs, partner y.2 y.1 ∈ current ∧ (x = y.1 ∨ x = partner y.2 y.1)) := by
  induction xs generalizing r with
  | nil => simp
  | cons y xs ih =>
    obtain ⟨hnext, hmerged⟩ := ih (r.merge current y.1 y.2)
    rw [List.foldl_cons]
    dsimp only at hnext hmerged ⊢
    rw [hnext, hmerged, mem_merge.1, mem_merge.2, List.exists_mem_cons_iff,
      List.exists_mem_cons_iff, or_assoc, or_assoc]
    exact ⟨.rfl, .rfl⟩

theorem mem_tries {visited : List Implicant} {i : Implicant} {p : Nat} :
    (i, p) ∈ tries visited ↔
      i ∈ visited ∧ p < Domain.width ∧ i.value.testBit p = true := by
  simp [tries, mem_setPositions]

theorem mem_next_round_iff {current visited : List Implicant} {j : Implicant} :
    j ∈ (round current visited).next ↔ ∃ i p, Merges current visited i p ∧ j = i.drop p := by
  rw [round_eq_foldl, (mem_foldl_merge _ _).1]
  constructor
  · rintro (h | ⟨⟨i, p⟩, h, hpartner, rfl⟩)
    · exact absurd h List.not_mem_nil
    · obtain ⟨hi, hp⟩ := mem_tries.1 h
      exact ⟨i, p, ⟨hi, hp, hpartner⟩, rfl⟩
  · rintro ⟨i, p, ⟨hi, hp, hpartner⟩, rfl⟩
    exact .inr ⟨(i, p), mem_tries.2 ⟨hi, hp⟩, hpartner, rfl⟩

theorem mem_merged_round_iff {current visited : List Implicant} {j : Implicant} :
    j ∈ (round current visited).merged ↔
      ∃ i p, Merges current visited i p ∧ (j = i ∨ j = partner p i) := by
  rw [round_eq_foldl, (mem_foldl_merge _ _).2]
  constructor
  · rintro (h | ⟨⟨i, p⟩, h, hpartner, hj⟩)
    · exact absurd h List.not_mem_nil
    · obtain ⟨hi, hp⟩ := mem_tries.1 h
      exact ⟨i, p, ⟨hi, hp, hpartner⟩, hj⟩
  · rintro ⟨i, p, ⟨hi, hp, hpartner⟩, hj⟩
    exact .inr ⟨(i, p), mem_tries.2 ⟨hi, hp⟩, hpartner, hj⟩

theorem value_drop_lt {i : Implicant} {p : Nat} (h : i.value.testBit p = true) :
    (i.drop p).value < i.value := by
  apply Nat.lt_of_testBit p
  · simp [testBit_value_drop]
  · exact h
  · intro q hq
    simp [testBit_value_drop, Nat.ne_of_gt hq]

/-- Merging makes values smaller, so the rounds come to an end. -/
theorem valueBound_next_lt {current visited : List Implicant} (hne : current ≠ [])
    (hvisited : visited ⊆ current) :
    valueBound (round current visited).next < valueBound current := by
  have hbound : ∀ i ∈ current, i.value < valueBound current :=
    valueBound_le_iff.1 (Nat.le_refl _)
  obtain ⟨i, hi⟩ := List.exists_mem_of_ne_nil current hne
  have hpos : 0 < valueBound current := Nat.zero_lt_of_lt (hbound i hi)
  have hle : valueBound (round current visited).next ≤ valueBound current - 1 := by
    rw [valueBound_le_iff]
    intro j hj
    obtain ⟨i, p, hmerges, rfl⟩ := mem_next_round_iff.1 hj
    have hdrop := value_drop_lt hmerges.position.2
    have hi := hbound i (hvisited hmerges.visited)
    omega
  omega

/-- The rounds from a current set on until a set is empty, after some primes were found. -/
def rounds (visit collect : Traversal) (current primes : List Implicant) : List Implicant :=
  if current = [] then primes
  else
    let r := round current (visit.order current)
    rounds visit collect r.next
      (primes ++ (collect.order current).filter fun i => !r.merged.contains i)
termination_by valueBound current
decreasing_by exact valueBound_next_lt ‹_› (visit.perm current).subset

/-! ### What the rounds find -/

/-- The set has all implicants of the rows with a number of literals, each once. -/
structure HasAll (n : Nat) (rows : List Nat) (m : Nat) (s : List Implicant) : Prop where
  nodup : s.Nodup
  mem_iff : ∀ i : Implicant, i ∈ s ↔ i.Implies n rows ∧ i.literalCount = m

/-- The list has all prime implicants of the rows with at least a number of literals, each once. -/
structure HasPrimes (n : Nat) (rows : List Nat) (m : Nat) (primes : List Implicant) : Prop where
  nodup : primes.Nodup
  mem_iff : ∀ i : Implicant, i ∈ primes ↔ i.IsPrime n rows ∧ m ≤ i.literalCount

theorem partner_fix {n p : Nat} {j : Implicant} (h : j.Within n) (hp : p < n)
    (hfree : j.care.testBit p = false) : partner p (j.fix p true) = j.fix p false := by
  have hvalue : ((j.fix p true).drop p).value = j.value := by rw [drop_fix h hp hfree]
  exact congrArg (Implicant.mk · (j.care ||| 1 <<< p)) hvalue

section Rounds

variable {n m : Nat} {rows : List Nat} {current visited : List Implicant}

section

variable (hn : n ≤ Domain.width) (h : HasAll n rows m current) (hvisited : visited.Perm current)
include hn h hvisited

/-- Two implicants of the set merge exactly into the implicants with one literal less. -/
theorem merges_fix_iff {j : Implicant} {p : Nat} (hj : j.Within n) (hp : p < n)
    (hfree : j.care.testBit p = false) :
    Merges current visited (j.fix p true) p ↔ j.Implies n rows ∧ j.literalCount + 1 = m := by
  have hboth : (∀ holds, j.fix p holds ∈ current) ↔ j.Implies n rows ∧ j.literalCount + 1 = m := by
    simp only [h.mem_iff, literalCount_fix hn hp hfree, implies_iff_fix hj hp hfree, forall_and,
      forall_const]
  rw [← hboth, Bool.forall_bool, and_comm]
  constructor
  · intro hmerges
    exact ⟨hvisited.subset hmerges.visited, partner_fix hj hp hfree ▸ hmerges.partner⟩
  · rintro ⟨htrue, hfalse⟩
    refine ⟨hvisited.mem_iff.2 htrue, ⟨Nat.lt_of_lt_of_le hp hn, ?_⟩,
      (partner_fix hj hp hfree).symm ▸ hfalse⟩
    simp [testBit_value_fix]

/-- What merges at a position is an implicant with this position fixed, either way. -/
theorem exists_fix_of_merges {i : Implicant} {p : Nat} (hmerges : Merges current visited i p) :
    ∃ j : Implicant, j.Implies n rows ∧ j.literalCount + 1 = m ∧ p < n ∧
      j.care.testBit p = false ∧ i = j.fix p true ∧ partner p i = j.fix p false := by
  have hi : i.Within n := ((h.mem_iff i).1 (hvisited.subset hmerges.visited)).1.toWithin
  have hcare : i.care.testBit p = true := hi.care_of_value hmerges.position.2
  have hp := hi.lt_of_care hcare
  have hfix : (i.drop p).fix p true = i := by
    have := fix_drop hi hcare
    rwa [hmerges.position.2] at this
  have hpartner : partner p i = (i.drop p).fix p false := by
    rw [← partner_fix (hi.drop p) hp (free_drop i p), hfix]
  obtain ⟨himplies, hcount⟩ := (merges_fix_iff hn h hvisited (hi.drop p) hp (free_drop i p)).1
    (hfix.symm ▸ hmerges)
  exact ⟨i.drop p, himplies, hcount, hp, free_drop i p, hfix.symm, hpartner⟩

/-- The next set has all implicants with one literal less. -/
theorem mem_next_round (hm : m ≤ n) {j : Implicant} :
    j ∈ (round current visited).next ↔ j.Implies n rows ∧ j.literalCount + 1 = m := by
  rw [mem_next_round_iff]
  constructor
  · rintro ⟨i, p, hmerges, rfl⟩
    obtain ⟨j, hj, hcount, hp, hfree, rfl, -⟩ := exists_fix_of_merges hn h hvisited hmerges
    rw [drop_fix hj.toWithin hp hfree]
    exact ⟨hj, hcount⟩
  · intro hj
    -- whatever position is still free, fixing it both ways gives two implicants that merge
    obtain ⟨p, hp, hfree⟩ : ∃ p < n, j.care.testBit p = false := exists_free hn (by omega)
    exact ⟨j.fix p true, p, (merges_fix_iff hn h hvisited hj.1.toWithin hp hfree).2 hj,
      (drop_fix hj.1.toWithin hp hfree).symm⟩

/-- An implicant was merged if and only if one of its literals can be given up. -/
theorem mem_merged_round {i : Implicant} (hi : i ∈ current) :
    i ∈ (round current visited).merged ↔
      ∃ p, i.care.testBit p = true ∧ (i.drop p).Implies n rows := by
  obtain ⟨himplies, hcount⟩ := (h.mem_iff i).1 hi
  have hwithin := himplies.toWithin
  rw [mem_merged_round_iff]
  constructor
  · rintro ⟨k, p, hmerges, hk⟩
    obtain ⟨j, hj, -, hp, hfree, hset, hclear⟩ := exists_fix_of_merges hn h hvisited hmerges
    obtain ⟨holds, rfl⟩ : ∃ holds, i = j.fix p holds := by
      rcases hk with rfl | rfl
      · exact ⟨true, hset⟩
      · exact ⟨false, hclear⟩
    refine ⟨p, by simp [testBit_care_fix], ?_⟩
    rwa [drop_fix hj.toWithin hp hfree]
  · rintro ⟨p, hcare, hdrop⟩
    have hp := hwithin.lt_of_care hcare
    have hfix := fix_drop hwithin hcare
    have hpartner := partner_fix (hwithin.drop p) hp (free_drop i p)
    refine ⟨(i.drop p).fix p true, p, ?_, ?_⟩
    · rw [merges_fix_iff hn h hvisited (hwithin.drop p) hp (free_drop i p)]
      exact ⟨hdrop, (literalCount_drop hn hwithin hcare).trans hcount⟩
    · cases hvalue : i.value.testBit p with
      | true => exact .inl (by rw [← hvalue, hfix])
      | false => exact .inr (by rw [hpartner, ← hvalue, hfix])

/-- An implicant of the set is prime if and only if it was not merged. -/
theorem isPrime_iff_not_merged {i : Implicant} (hi : i ∈ current) :
    i.IsPrime n rows ↔ i ∉ (round current visited).merged := by
  rw [mem_merged_round hn h hvisited hi, not_exists]
  constructor
  · intro hprime p hp
    exact hprime.not_implies_drop p hp.1 hp.2
  · intro hnot
    exact ⟨((h.mem_iff i).1 hi).1, fun p hcare hdrop => hnot p ⟨hcare, hdrop⟩⟩

end

theorem nodup_merge {r : Round} (hr : r.next.Nodup) (i : Implicant) (p : Nat) :
    (r.merge current i p).next.Nodup := by
  unfold Round.merge
  split
  · exact hr.insert
  · exact hr

theorem nodup_next_round : (round current visited).next.Nodup := by
  rw [round_eq_foldl]
  exact List.foldlRecOn _ _ (motive := fun r : Round => r.next.Nodup) List.nodup_nil
    fun r hr x _ => nodup_merge hr x.1 x.2

end Rounds

/-- The unmerged implicants of a set with all implicants of some number of literals add the primes
with this number of literals. -/
theorem HasPrimes.append {n m : Nat} {rows : List Nat} {current primes : List Implicant}
    (hprimes : HasPrimes n rows (m + 1) primes) (hn : n ≤ Domain.width)
    (h : HasAll n rows m current) {visited collected : List Implicant}
    (hvisited : visited.Perm current) (hcollected : collected.Perm current) :
    HasPrimes n rows m
      (primes ++ collected.filter fun i => !(round current visited).merged.contains i) := by
  have hmem : ∀ i, (i ∈ collected.filter fun i => !(round current visited).merged.contains i) ↔
      i.IsPrime n rows ∧ i.literalCount = m := by
    intro i
    rw [List.mem_filter, hcollected.mem_iff, Bool.not_eq_true', List.contains_eq_mem,
      decide_eq_false_iff_not]
    constructor
    · rintro ⟨hi, hnot⟩
      exact ⟨(isPrime_iff_not_merged hn h hvisited hi).2 hnot, ((h.mem_iff i).1 hi).2⟩
    · rintro ⟨hprime, hcount⟩
      have hi := (h.mem_iff i).2 ⟨hprime.toImplies, hcount⟩
      exact ⟨hi, (isPrime_iff_not_merged hn h hvisited hi).1 hprime⟩
  constructor
  · refine hprimes.nodup.append ((hcollected.nodup_iff.2 h.nodup).filter _) ?_
    intro i hi hi'
    have hlarge := ((hprimes.mem_iff i).1 hi).2
    have hcount := ((hmem i).1 hi').2
    omega
  · intro i
    rw [List.mem_append, hprimes.mem_iff, hmem]
    constructor
    · rintro (⟨hprime, hcount⟩ | ⟨hprime, hcount⟩)
      · exact ⟨hprime, by omega⟩
      · exact ⟨hprime, hcount.ge⟩
    · rintro ⟨hprime, hcount⟩
      rcases Nat.eq_or_lt_of_le hcount with heq | hlt
      · exact .inr ⟨hprime, heq.symm⟩
      · exact .inl ⟨hprime, hlt⟩

/-- When no implicants have some number of literals, none have less. -/
theorem HasPrimes.of_empty {n m : Nat} {rows : List Nat} {primes : List Implicant}
    (hprimes : HasPrimes n rows (m + 1) primes) (hn : n ≤ Domain.width) (hm : m ≤ n)
    (h : HasAll n rows m []) : HasPrimes n rows 0 primes where
  nodup := hprimes.nodup
  mem_iff i := by
    rw [hprimes.mem_iff]
    refine ⟨fun hi => ⟨hi.1, Nat.zero_le _⟩, fun hi => ⟨hi.1, ?_⟩⟩
    by_contra hless
    obtain ⟨j, hj⟩ := hi.1.toImplies.exists_literalCount_eq hn hm (by omega)
    exact List.not_mem_nil ((h.mem_iff j).2 hj)

/-- The rounds find all prime implicants, each once. -/
theorem hasPrimes_rounds {n m : Nat} {rows : List Nat} (hn : n ≤ Domain.width) (hm : m ≤ n)
    (visit collect : Traversal) {current primes : List Implicant}
    (h : HasAll n rows m current) (hprimes : HasPrimes n rows (m + 1) primes) :
    HasPrimes n rows 0 (rounds visit collect current primes) := by
  -- `m` literals are left, and every round takes one away
  induction m generalizing current primes with
  | zero =>
    rw [rounds]
    split
    · next hempty => exact hprimes.of_empty hn hm (hempty ▸ h)
    · have hnext : (round current (visit.order current)).next = [] := by
        rw [List.eq_nil_iff_forall_not_mem]
        intro j hj
        have hcount := ((mem_next_round hn h (visit.perm current) hm).1 hj).2
        omega
      dsimp only
      rw [hnext, rounds, if_pos rfl]
      exact hprimes.append hn h (visit.perm current) (collect.perm current)
  | succ m ih =>
    rw [rounds]
    split
    · next hempty => exact hprimes.of_empty hn hm (hempty ▸ h)
    · refine ih (by omega) ⟨nodup_next_round, fun j => ?_⟩
        (hprimes.append hn h (visit.perm current) (collect.perm current))
      rw [mem_next_round hn h (visit.perm current) hm, Nat.add_right_cancel_iff]

end Merging

/-! ### The primes of a table -/

namespace Implicant

theorem positions_sort (is : List Implicant) :
    (sort is).map positions = ascending (is.map positions) :=
  List.map_mergeSort fun _ _ _ _ => rfl

/-- Implicants that are listed once are sorted to a strictly ascending list. -/
theorem pairwise_sort {is : List Implicant} (hwithin : ∀ i ∈ is, i.Within Domain.width)
    (hnodup : is.Nodup) : (sort is).Pairwise fun i j => compare i j = .lt := by
  have hperm : (sort is).Perm is := List.mergeSort_perm is _
  have hle : (sort is).Pairwise fun i j => (compare i j).isLE := by
    have := pairwise_ascending (is.map positions)
    rwa [← positions_sort, List.pairwise_map] at this
  refine (hle.and (hperm.nodup_iff.2 hnodup)).imp_of_mem ?_
  rintro i j hi hj ⟨hisLE, hne⟩
  have hne : compare i j ≠ .eq := fun heq =>
    hne (eq_of_compare_eq (hwithin i (hperm.subset hi)) (hwithin j (hperm.subset hj)) heq)
  cases hcompare : compare i j with
  | lt => rfl
  | eq => exact absurd hcompare hne
  | gt => simp [hcompare] at hisLE

theorem sort_eq_of_perm {is js : List Implicant} (hwithin : ∀ i ∈ is, i.Within Domain.width)
    (h : is.Perm js) : sort is = sort js :=
  mergeSort_eq_of_perm (f := positions) h fun i hi j hj heq =>
    eq_of_positions_eq (hwithin i hi) (hwithin j hj) heq

end Implicant

/-- Nothing is erased from a list without repeats. -/
theorem eraseReps_of_nodup {α : Type} [BEq α] [LawfulBEq α] {l : List α} (h : l.Nodup) :
    l.eraseReps = l := by
  have hloop : ∀ (as : List α) (a : α) (acc : List α), (a :: as).Nodup →
      List.eraseRepsBy.loop (· == ·) a as acc = acc.reverse ++ a :: as := by
    intro as
    induction as with
    | nil => intro a acc _; simp [List.eraseRepsBy.loop]
    | cons b as ih =>
      intro a acc hnodup
      obtain ⟨ha, htail⟩ := List.nodup_cons.1 hnodup
      have hne : (a == b) = false := beq_false_of_ne fun heq => ha (heq ▸ List.mem_cons_self)
      rw [List.eraseRepsBy.loop, hne]
      simp [ih b (a :: acc) htail]
  cases l with
  | nil => rfl
  | cons a as => exact hloop as a [] h

namespace TruthTable

open Implicant Merging

/-- What holds of the tables of expressions: the minterms are rows of the table, in ascending
order. -/
structure WellFormed (t : TruthTable) : Prop where
  ascending : t.minterms.Pairwise (· < ·)
  lt_rowCount : ∀ row ∈ t.minterms, row < t.rowCount

theorem wellFormed_ofExpr (e : Expr) : (ofExpr e).WellFormed where
  ascending := minterms_ascending e
  lt_rowCount row hrow := by
    rw [rowCount, Nat.one_shiftLeft]
    exact (mem_minterms.1 hrow).1

theorem tabulate_eq_ok_iff {e : Expr} {limit : Nat} {t : TruthTable} :
    tabulate e limit = .ok t ↔ (Domain.ofExpr e).size ≤ limit ∧ t = ofExpr e := by
  rw [tabulate]
  split
  · next hlimit => simp [hlimit]
  · next hlimit => simp [Nat.not_lt.1 hlimit, eq_comm]

theorem wellFormed_of_tabulate {e : Expr} {limit : Nat} {t : TruthTable}
    (h : tabulate e limit = .ok t) : t.WellFormed := by
  obtain ⟨-, rfl⟩ := tabulate_eq_ok_iff.1 h
  exact wellFormed_ofExpr e

/-- The set that merging starts from: an implicant for every minterm. -/
def singleRows (t : TruthTable) : List Implicant :=
  (t.minterms.map fun row => ofMinterm row t.domain).dedup

/-- The prime implicants of a table by merging, for two ways to go through the current set: one
for merging, and one for collecting what was not merged. -/
def mergedPrimes (t : TruthTable) (visit collect : Traversal) : List Implicant :=
  (sort (rounds visit collect t.singleRows [])).eraseReps

section Primes

variable {t : TruthTable} (h : t.WellFormed)
include h

theorem WellFormed.lt_two_pow {row : Nat} (hrow : row ∈ t.minterms) : row < 2 ^ t.domain.size := by
  rw [← Nat.one_shiftLeft]
  exact h.lt_rowCount row hrow

theorem WellFormed.mem_primes {i : Implicant} :
    i ∈ t.primes ↔ i.IsPrime t.domain.size t.minterms := by
  unfold primes sort
  rw [List.mem_mergeSort]
  exact Prime.mem_ofRows h.ascending fun _ => h.lt_two_pow

theorem WellFormed.nodup_ofRows : (Prime.ofRows t.domain.size t.minterms).Nodup :=
  Prime.nodup_ofRows h.ascending fun _ => h.lt_two_pow

variable (hwidth : t.domain.size ≤ Domain.width)
include hwidth

/-- The single rows are the implicants that fix all positions. -/
theorem hasAll_singleRows : HasAll t.domain.size t.minterms t.domain.size t.singleRows where
  nodup := List.nodup_dedup _
  mem_iff i := by
    rw [singleRows, List.mem_dedup, List.mem_map]
    constructor
    · rintro ⟨row, hrow, rfl⟩
      refine ⟨⟨within_ofMinterm hwidth, fun row' hrow' hcovers => ?_⟩,
        literalCount_ofMinterm hwidth⟩
      rwa [(covers_ofMinterm hwidth (h.lt_two_pow hrow) hrow').1 hcovers]
    · rintro ⟨hi, hcount⟩
      refine ⟨i.value, hi.mem_of_covers _ hi.value_lt ?_,
        (eq_ofMinterm hwidth hi.toWithin hcount).symm⟩
      rw [covers, hi.value_and_care, beq_self_eq_true]

theorem hasPrimes_merging (visit collect : Traversal) :
    HasPrimes t.domain.size t.minterms 0 (rounds visit collect t.singleRows []) := by
  refine hasPrimes_rounds hwidth (Nat.le_refl _) visit collect (hasAll_singleRows h hwidth)
    ⟨List.nodup_nil, fun i => ⟨fun hi => absurd hi List.not_mem_nil, fun hi => ?_⟩⟩
  have := literalCount_le hi.1.toWithin
  omega

/-- Merging comes to the list of the expansion, in whatever order the sets are gone through. -/
theorem mergedPrimes_eq (visit collect : Traversal) : t.mergedPrimes visit collect = t.primes := by
  have hprimes := hasPrimes_merging h hwidth visit collect
  have hwithin : ∀ i ∈ rounds visit collect t.singleRows [], i.Within Domain.width := fun i hi =>
    ((hprimes.mem_iff i).1 hi).1.toWithin.mono hwidth
  -- both lists have the prime implicants, each once, so they are sorted to the same list
  have hperm : (rounds visit collect t.singleRows []).Perm
      (Prime.ofRows t.domain.size t.minterms) := by
    rw [List.perm_ext_iff_of_nodup hprimes.nodup h.nodup_ofRows]
    intro i
    rw [hprimes.mem_iff, Prime.mem_ofRows h.ascending fun _ => h.lt_two_pow]
    exact and_iff_left (Nat.zero_le _)
  have hnodup : (sort (rounds visit collect t.singleRows [])).Nodup :=
    (List.mergeSort_perm _ _).nodup_iff.2 hprimes.nodup
  rw [mergedPrimes, eraseReps_of_nodup hnodup]
  exact sort_eq_of_perm hwithin hperm

/-- The list of primes has the prime implicants of the table. -/
theorem mem_primes_iff {i : Implicant} :
    i ∈ t.primes ↔
      i.value &&& i.care = i.value ∧ i.care &&& t.domain.fullMask = i.care ∧
        (∀ row < t.rowCount, i.covers row = true → row ∈ t.minterms) ∧
        ∀ p, i.care.testBit p = true →
          ∃ row < t.rowCount, (i.drop p).covers row = true ∧ row ∉ t.minterms := by
  have hmask : ∀ x : Nat, x &&& t.domain.fullMask = x ↔ x < 2 ^ t.domain.size := by
    intro x
    rw [Domain.fullMask, Nat.min_eq_left hwidth, Nat.one_shiftLeft, Nat.and_two_pow_sub_one_eq_mod,
      Nat.mod_eq_iff_lt (Nat.two_pow_pos _).ne']
  rw [h.mem_primes, hmask, rowCount, Nat.one_shiftLeft]
  constructor
  · intro hi
    refine ⟨hi.value_and_care, hi.care_lt, hi.mem_of_covers, fun p hp => ?_⟩
    by_contra hall
    refine hi.not_implies_drop p hp ⟨hi.toWithin.drop p, fun row hrow hcovers => ?_⟩
    by_contra hmem
    exact hall ⟨row, hrow, hcovers, hmem⟩
  · rintro ⟨hvalue, hcare, hcovers, hdrop⟩
    refine ⟨⟨⟨hcare, hvalue⟩, hcovers⟩, fun p hp himplies => ?_⟩
    obtain ⟨row, hrow, hcovers, hmem⟩ := hdrop p hp
    exact hmem (himplies.mem_of_covers row hrow hcovers)

end Primes

/-- The tables of expressions are well-formed. For a well-formed table of no more positions than
rows have bits, the primes are strictly ascending; they are the implicants within the domain that
cover minterms only and cease to do so when any fixed position is given up; and merging comes to
the same list, in whatever order it goes through its sets. -/
theorem primes_spec :
    (∀ (e : Expr) (limit : Nat) (t : TruthTable), tabulate e limit = .ok t → t.WellFormed) ∧
      ∀ t : TruthTable, t.WellFormed → t.domain.size ≤ Domain.width →
        (t.primes.Pairwise fun i j => compare i j = .lt) ∧
          (∀ i : Implicant, i ∈ t.primes ↔
            i.value &&& i.care = i.value ∧ i.care &&& t.domain.fullMask = i.care ∧
              (∀ row < t.rowCount, i.covers row = true → row ∈ t.minterms) ∧
              ∀ p, i.care.testBit p = true →
                ∃ row < t.rowCount, (i.drop p).covers row = true ∧ row ∉ t.minterms) ∧
          ∀ visit collect : Traversal, t.mergedPrimes visit collect = t.primes := by
  refine ⟨fun _ _ _ => wellFormed_of_tabulate, fun t h hwidth => ⟨?_, ?_, ?_⟩⟩
  · refine pairwise_sort (fun i hi => ?_) h.nodup_ofRows
    rw [Prime.mem_ofRows h.ascending fun _ => h.lt_two_pow] at hi
    exact hi.toWithin.mono hwidth
  · exact fun i => mem_primes_iff h hwidth
  · exact mergedPrimes_eq h hwidth

/-- The second literal of `3 | !7` cannot be given up, and merging finds it in any order. -/
theorem primes_spec_disjunction :
    let t := ofExpr (.or [.atom 3, .not (.atom 7)])
    tabulate (.or [.atom 3, .not (.atom 7)]) 2 = .ok t ∧ t.domain.size ≤ Domain.width ∧
      ⟨0, 2⟩ ∈ t.primes ∧
      t.mergedPrimes ⟨List.reverse, fun s => s.reverse_perm⟩ ⟨id, fun s => .refl s⟩ = t.primes := by
  have htable : tabulate (.or [.atom 3, .not (.atom 7)]) 2 =
      .ok (ofExpr (.or [.atom 3, .not (.atom 7)])) := by decide
  have hwidth : (ofExpr (.or [.atom 3, .not (.atom 7)])).domain.size ≤ Domain.width := by decide
  obtain ⟨-, hmem, hmerged⟩ := primes_spec.2 _ (primes_spec.1 _ _ _ htable) hwidth
  refine ⟨htable, hwidth, (hmem ⟨0, 2⟩).2 ⟨by decide, by decide, by decide, ?_⟩, hmerged _ _⟩
  intro p hp
  have hp : (2 ^ 1).testBit p = true := hp
  rw [Nat.testBit_two_pow, decide_eq_true_eq] at hp
  subst hp
  exact ⟨2, by decide, by decide +kernel, by decide⟩

end TruthTable

end RulePaths
