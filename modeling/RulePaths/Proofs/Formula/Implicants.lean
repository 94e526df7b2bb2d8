import RulePaths.Formula.Implicant
import RulePaths.Proofs.Formula.Rows
import RulePaths.Proofs.Formula.Terms
import Mathlib.Data.Nat.Bitwise

/-!
# What implicants mean

An implicant is read in three ways: as two numbers with which it tests rows, as a term over
positions, by which it is compared, and as a term over the attributes of a domain, which is what
a cover shows. For implicants within a domain the three readings agree.

## Main definitions

- `Implicant.Within` — the implicant fixes some of the first `n` positions and nothing else
- `Implicant.drop` — the implicant with one position given up

## Main results

- `Implicant.covers_iff` — an implicant covers the rows that agree with it bit by bit
- `Implicant.eq_of_compare_eq` — implicants that compare equal are equal
- `Implicant.literals_eq` — the two terms differ in the names of the places only
- `Implicant.compare_literals` — the terms over attributes are ordered like the implicants
- `Implicant.eval_literals` — a term over attributes is true under an assignment exactly if the
  implicant covers the row of the assignment
-/

namespace RulePaths

open Std

namespace Implicant

/-- The fixed positions are among the first `n`, and no bit of the value lies outside them. -/
structure Within (n : Nat) (i : Implicant) : Prop where
  care_lt : i.care < 2 ^ n
  value_and_care : i.value &&& i.care = i.value

instance (n : Nat) (i : Implicant) : Decidable (i.Within n) :=
  decidable_of_iff (i.care < 2 ^ n ∧ i.value &&& i.care = i.value)
    ⟨fun h => ⟨h.1, h.2⟩, fun h => ⟨h.1, h.2⟩⟩

theorem Within.mono {m n : Nat} {i : Implicant} (h : i.Within m) (hmn : m ≤ n) : i.Within n :=
  ⟨Nat.lt_of_lt_of_le h.care_lt (Nat.pow_le_pow_right (by decide) hmn), h.value_and_care⟩

theorem Within.care_of_value {n p : Nat} {i : Implicant} (h : i.Within n)
    (hp : i.value.testBit p = true) : i.care.testBit p = true := by
  rw [← h.value_and_care, Nat.testBit_and, Bool.and_eq_true] at hp
  exact hp.2

theorem Within.lt_of_care {n p : Nat} {i : Implicant} (h : i.Within n)
    (hp : i.care.testBit p = true) : p < n :=
  lt_of_testBit h.care_lt hp

theorem Within.value_lt {n : Nat} {i : Implicant} (h : i.Within n) : i.value < 2 ^ n := by
  rw [← h.value_and_care]
  exact Nat.and_lt_two_pow _ h.care_lt

/-- An implicant is known from its fixed positions and their values. -/
theorem Within.ext {m n : Nat} {i j : Implicant} (hi : i.Within m) (hj : j.Within n)
    (hcare : ∀ p, i.care.testBit p = j.care.testBit p)
    (hvalue : ∀ p, i.care.testBit p = true → i.value.testBit p = j.value.testBit p) :
    i = j := by
  have hvalues : i.value = j.value := by
    apply Nat.eq_of_testBit_eq
    intro p
    cases hp : i.care.testBit p with
    | true => exact hvalue p hp
    | false =>
      have hpj : j.care.testBit p = false := (hcare p).symm.trans hp
      rw [← hi.value_and_care, ← hj.value_and_care, Nat.testBit_and, Nat.testBit_and, hp, hpj,
        Bool.and_false, Bool.and_false]
  have hcares : i.care = j.care := Nat.eq_of_testBit_eq hcare
  cases i
  cases j
  simp_all

/-- An implicant covers the rows that agree with it on every fixed position. -/
theorem covers_iff {n row : Nat} {i : Implicant} (h : i.Within n) :
    i.covers row = true ↔
      ∀ p, i.care.testBit p = true → row.testBit p = i.value.testBit p := by
  unfold covers
  rw [beq_iff_eq]
  constructor
  · intro heq p hp
    rw [← heq, Nat.testBit_and, hp, Bool.and_true]
  · intro hbits
    apply Nat.eq_of_testBit_eq
    intro p
    rw [Nat.testBit_and]
    cases hp : i.care.testBit p with
    | true => rw [Bool.and_true, hbits p hp]
    | false =>
      rw [← h.value_and_care, Nat.testBit_and, hp, Bool.and_false, Bool.and_false]

/-! ### Giving up a position -/

/-- The implicant with one position given up. -/
def drop (p : Nat) (i : Implicant) : Implicant :=
  ⟨i.value.ldiff (1 <<< p), i.care.ldiff (1 <<< p)⟩

theorem testBit_ldiff_shift (x p q : Nat) :
    (x.ldiff (1 <<< p)).testBit q = (x.testBit q && decide (q ≠ p)) := by
  rw [Nat.testBit_ldiff, Nat.one_shiftLeft, Nat.testBit_two_pow]
  by_cases h : p = q
  · simp [h]
  · simp [h, Ne.symm h]

theorem testBit_care_drop (i : Implicant) (p q : Nat) :
    (i.drop p).care.testBit q = (i.care.testBit q && decide (q ≠ p)) :=
  testBit_ldiff_shift i.care p q

theorem testBit_value_drop (i : Implicant) (p q : Nat) :
    (i.drop p).value.testBit q = (i.value.testBit q && decide (q ≠ p)) :=
  testBit_ldiff_shift i.value p q

theorem Within.drop {n : Nat} {i : Implicant} (h : i.Within n) (p : Nat) :
    (i.drop p).Within n where
  care_lt := by
    apply Nat.lt_pow_two_of_testBit
    intro q hq
    rw [testBit_care_drop, Bool.eq_false_iff.2 fun hcare => Nat.not_lt.2 hq (h.lt_of_care hcare),
      Bool.false_and]
  value_and_care := by
    apply Nat.eq_of_testBit_eq
    intro q
    rw [Nat.testBit_and, testBit_value_drop, testBit_care_drop]
    cases hq : i.value.testBit q with
    | false => simp
    | true => simp [h.care_of_value hq]

/-! ### The term over positions -/

instance : TransOrd Implicant :=
  inferInstanceAs (TransCmp (compareOn positions))

theorem literalCount_eq (i : Implicant) : i.literalCount = i.positions.length := by
  unfold literalCount positions
  rw [List.countP_eq_length_filter, List.length_map]

theorem mem_positions {n : Nat} {i : Implicant} (h : i.Within n) (hn : n ≤ Domain.width)
    {l : Literal} :
    l ∈ i.positions ↔ i.care.testBit l.index = true ∧ l.negated = !i.value.testBit l.index := by
  unfold positions
  rw [List.mem_map]
  constructor
  · rintro ⟨p, hp, rfl⟩
    exact ⟨(List.mem_filter.1 hp).2, rfl⟩
  · rintro ⟨hcare, hneg⟩
    have hlt : l.index < Domain.width := Nat.lt_of_lt_of_le (h.lt_of_care hcare) hn
    exact ⟨l.index, List.mem_filter.2 ⟨List.mem_range.2 hlt, hcare⟩, by rw [← hneg]⟩

theorem eq_of_positions_eq {i j : Implicant} (hi : i.Within Domain.width)
    (hj : j.Within Domain.width) (h : i.positions = j.positions) : i = j := by
  have hiff : ∀ l : Literal,
      (i.care.testBit l.index = true ∧ l.negated = !i.value.testBit l.index) ↔
        (j.care.testBit l.index = true ∧ l.negated = !j.value.testBit l.index) := by
    intro l
    rw [← mem_positions hi (Nat.le_refl _), ← mem_positions hj (Nat.le_refl _), h]
  refine hi.ext hj (fun p => ?_) fun p hp => ?_
  · rw [Bool.eq_iff_iff]
    exact ⟨fun hp => ((hiff ⟨p, !i.value.testBit p⟩).1 ⟨hp, rfl⟩).1,
      fun hp => ((hiff ⟨p, !j.value.testBit p⟩).2 ⟨hp, rfl⟩).1⟩
  · have hneg := ((hiff ⟨p, !i.value.testBit p⟩).1 ⟨hp, rfl⟩).2
    simpa using hneg

theorem eq_of_compare_eq {i j : Implicant} (hi : i.Within Domain.width)
    (hj : j.Within Domain.width) (h : compare i j = .eq) : i = j :=
  eq_of_positions_eq hi hj (LawfulEqOrd.eq_of_compare h)

/-! ### The term over a domain -/

/-- A literal over positions as a literal over the attributes of a domain. -/
def relabel (d : Domain) (l : Literal) : Literal :=
  ⟨d.attributeAt l.index, l.negated⟩

theorem zipIdx_attributes (d : Domain) :
    d.attributes.zipIdx = (List.range d.size).map fun p => (d.attributeAt p, p) := by
  apply List.ext_getElem
  · simp [Domain.size]
  · intro p h₁ h₂
    have hp : p < d.attributes.length := by simpa using h₁
    simp [Domain.attributeAt_eq_getElem hp]

theorem filter_range_care {n : Nat} {i : Implicant} (h : i.Within n) {m : Nat} (hm : n ≤ m) :
    (List.range m).filter i.care.testBit = (List.range n).filter i.care.testBit := by
  obtain ⟨k, rfl⟩ := Nat.exists_eq_add_of_le hm
  rw [List.range_add, List.filter_append, List.append_right_eq_self, List.filter_eq_nil_iff]
  intro p hp hcare
  obtain ⟨q, _, rfl⟩ := List.mem_map.1 hp
  have := h.lt_of_care hcare
  omega

/-- The terms of an implicant over positions and over a domain differ in the names of the
    places only, in a domain of any size, if the implicant fixes places within words only. -/
theorem literals_eq_of_le {n : Nat} {d : Domain} {i : Implicant} (h : i.Within n)
    (hd : n ≤ d.size) (hn : n ≤ Domain.width) : i.literals d = i.positions.map (relabel d) := by
  unfold literals positions
  rw [zipIdx_attributes, List.filter_map, List.map_map, List.map_map, filter_range_care h hn]
  exact congrArg _ (filter_range_care h hd)

/-- The terms of an implicant over positions and over a domain differ in the names of the
    places only. -/
theorem literals_eq {d : Domain} {i : Implicant} (h : i.Within d.size)
    (hd : d.size ≤ Domain.width) : i.literals d = i.positions.map (relabel d) :=
  literals_eq_of_le h (Nat.le_refl _) hd

theorem length_literals {d : Domain} {i : Implicant} (h : i.Within d.size)
    (hd : d.size ≤ Domain.width) : (i.literals d).length = i.literalCount := by
  rw [literals_eq h hd, List.length_map, literalCount_eq]

theorem mem_literals {d : Domain} {i : Implicant} (h : i.Within d.size) {l : Literal} :
    l ∈ i.literals d ↔
      ∃ p, i.care.testBit p = true ∧ l = ⟨d.attributeAt p, !i.value.testBit p⟩ := by
  unfold literals
  rw [zipIdx_attributes, List.filter_map, List.map_map, List.mem_map]
  constructor
  · rintro ⟨p, hp, rfl⟩
    exact ⟨p, (List.mem_filter.1 hp).2, rfl⟩
  · rintro ⟨p, hcare, rfl⟩
    exact ⟨p, List.mem_filter.2 ⟨List.mem_range.2 (h.lt_of_care hcare), hcare⟩, rfl⟩

theorem literals_ascending (d : Domain) (i : Implicant) : (i.literals d).Ascending := by
  unfold Term.Ascending literals
  rw [zipIdx_attributes, List.pairwise_map, List.filter_map, List.pairwise_map]
  refine (List.pairwise_lt_range.filter _).imp_of_mem ?_
  intro p q _ hq hpq
  exact Domain.attributeAt_lt hpq (List.mem_range.1 (List.mem_filter.1 hq).1)

/-- The terms over the attributes of a domain of any size are ordered like the implicants. -/
theorem compare_literals_of_le {n : Nat} {d : Domain} {i j : Implicant} (hi : i.Within n)
    (hj : j.Within n) (hd : n ≤ d.size) (hn : n ≤ Domain.width) :
    compare (i.literals d) (j.literals d) = compare i j := by
  rw [literals_eq_of_le hi hd hn, literals_eq_of_le hj hd hn]
  apply compare_map
  intro k hk l hl
  have hk' := Nat.lt_of_lt_of_le (hi.lt_of_care ((mem_positions hi hn).1 hk).1) hd
  have hl' := Nat.lt_of_lt_of_le (hj.lt_of_care ((mem_positions hj hn).1 hl).1) hd
  show (compare (d.attributeAt k.index) (d.attributeAt l.index)).then _ = _
  rw [Domain.compare_attributeAt hk' hl']
  rfl

/-- The terms over attributes are ordered like the implicants. -/
theorem compare_literals {d : Domain} {i j : Implicant} (hi : i.Within d.size)
    (hj : j.Within d.size) (hd : d.size ≤ Domain.width) :
    compare (i.literals d) (j.literals d) = compare i j :=
  compare_literals_of_le hi hj (Nat.le_refl _) hd

/-- A term over attributes is true under an assignment exactly if the implicant covers the row
    of the assignment. -/
theorem eval_literals {d : Domain} {i : Implicant} (h : i.Within d.size) (v : Assignment) :
    Term.eval v (i.literals d) = i.covers (d.row v) := by
  rw [Bool.eq_iff_iff, covers_iff h, Term.eval_iff]
  constructor
  · intro htrue p hp
    have hl := htrue _ ((mem_literals h).2 ⟨p, hp, rfl⟩)
    rw [Domain.testBit_row (h.lt_of_care hp)]
    exact (Literal.eval_mk v _ _).1 hl
  · intro hbits l hl
    obtain ⟨p, hp, rfl⟩ := (mem_literals h).1 hl
    rw [Literal.eval_mk, ← Domain.testBit_row (v := v) (h.lt_of_care hp)]
    exact hbits p hp

end Implicant

end RulePaths
