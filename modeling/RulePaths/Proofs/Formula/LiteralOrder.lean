import RulePaths.Proofs.Formula.Implicants

/-!
# The order of implicants is the order of their literals

Implicants are compared by the bits of two numbers. What is compared in this way are the terms that
the numbers stand for: the order of implicants over a domain is the lexicographic order of their
literals. So the domain does not matter. In a domain with more attributes the bits of an implicant
stand elsewhere, but its literals are the same, and it compares as before.

A domain may have more attributes than a word has bits. The implicants over it fix attributes at
the positions of a word only.

## Main definitions

- `Literal.Before` — the order of literals: by attribute, positive before negated
- `Implicant.Over` — the implicant fixes positions of a domain and nothing else
- `Implicant.transfer` — the implicant over another domain that fixes the same attributes

## Main results

- `Implicant.Over.compare_eq_lt_iff` — the order of implicants is that of their literals
- `Implicant.literals_transfer` — the literals are the same in the other domain
- `Implicant.order_spec` — the order of implicants over a domain, and in another one
-/

namespace RulePaths

open Std

/-! ### The order of literals -/

/-- A literal comes before those of higher attributes, and the positive literal of an attribute
before the negated one. -/
def Literal.Before (k l : Literal) : Prop :=
  k.index < l.index ∨ k.index = l.index ∧ k.negated = false ∧ l.negated = true

theorem Literal.compare_eq_lt_iff {k l : Literal} : compare k l = .lt ↔ k.Before l := by
  have hsign : compare k.negated l.negated = .lt ↔ k.negated = false ∧ l.negated = true := by
    cases k.negated <;> cases l.negated <;> decide
  show (compare k.index l.index).then (compare k.negated l.negated) = .lt ↔ _
  rw [Ordering.then_eq_lt, Nat.compare_eq_lt, Nat.compare_eq_eq, hsign, Before]

/-! ### Domains -/

namespace Domain

/-- The positions of a number over one domain as positions of another domain: a bit is moved to
where its attribute stands there. -/
def moveBits (d d' : Domain) (x : Nat) : Nat :=
  Nat.ofBits fun p : Fin d'.size => (d.position? (d'.attributeAt p)).any x.testBit

variable {d d' : Domain} {x p q : Nat}

theorem moveBits_lt (d d' : Domain) (x : Nat) : d.moveBits d' x < 2 ^ d'.size :=
  Nat.ofBits_lt_two_pow _

theorem testBit_moveBits (hp : p < d'.size) (hq : q < d.size)
    (h : d'.attributeAt p = d.attributeAt q) : (d.moveBits d' x).testBit p = x.testBit q := by
  rw [moveBits, Nat.testBit_ofBits_lt _ p hp, h, position?_attributeAt hq, Option.any_some]

/-- Every bit comes from somewhere. -/
theorem exists_of_testBit_moveBits (h : (d.moveBits d' x).testBit p = true) :
    ∃ q < d.size, d'.attributeAt p = d.attributeAt q ∧ x.testBit q = true := by
  have hp := lt_of_testBit (moveBits_lt d d' x) h
  rw [moveBits, Nat.testBit_ofBits_lt _ p hp, Option.any_eq_true] at h
  obtain ⟨q, hposition, hbit⟩ := h
  obtain ⟨hq, heq, -⟩ := List.idxOf?_eq_some_iff.1 hposition
  exact ⟨q, hq, by rw [attributeAt_eq_getElem hq, heq], hbit⟩

end Domain

namespace Implicant

variable {d d' : Domain} {i j : Implicant}

/-! ### Implicants over a domain -/

/-- The value is of fixed positions, and these are positions of the domain. -/
structure Over (d : Domain) (i : Implicant) : Prop where
  value_and_care : i.value &&& i.care = i.value
  care_and_mask : i.care &&& d.fullMask = i.care

instance (d : Domain) (i : Implicant) : Decidable (i.Over d) :=
  decidable_of_iff (i.value &&& i.care = i.value ∧ i.care &&& d.fullMask = i.care)
    ⟨fun h => ⟨h.1, h.2⟩, fun h => ⟨h.1, h.2⟩⟩

theorem over_iff : i.Over d ↔ i.Within (min d.size Domain.width) := by
  have hmask : i.care &&& d.fullMask = i.care ↔ i.care < 2 ^ min d.size Domain.width := by
    rw [Domain.fullMask, Nat.one_shiftLeft, Nat.and_two_pow_sub_one_eq_mod,
      Nat.mod_eq_iff_lt (Nat.two_pow_pos _).ne']
  exact ⟨fun h => ⟨hmask.1 h.care_and_mask, h.value_and_care⟩,
    fun h => ⟨h.value_and_care, hmask.2 h.care_lt⟩⟩

theorem Over.within (h : i.Over d) : i.Within d.size :=
  (over_iff.1 h).mono (Nat.min_le_left _ _)

theorem Over.within_width (h : i.Over d) : i.Within Domain.width :=
  (over_iff.1 h).mono (Nat.min_le_right _ _)

theorem Over.compare_literals (hi : i.Over d) (hj : j.Over d) :
    compare (i.literals d) (j.literals d) = compare i j :=
  compare_literals_of_le (over_iff.1 hi) (over_iff.1 hj) (Nat.min_le_left _ _)
    (Nat.min_le_right _ _)

theorem Over.compare_eq_lt_iff (hi : i.Over d) (hj : j.Over d) :
    compare i j = .lt ↔ List.Lex Literal.Before (i.literals d) (j.literals d) := by
  rw [← hi.compare_literals hj]
  exact compare_eq_lt_iff_lex fun k l => Literal.compare_eq_lt_iff

theorem Over.compare_eq_gt_iff (hi : i.Over d) (hj : j.Over d) :
    compare i j = .gt ↔ List.Lex Literal.Before (j.literals d) (i.literals d) := by
  rw [← hj.compare_eq_lt_iff hi, OrientedOrd.eq_swap, Ordering.swap_eq_gt]

theorem Over.compare_eq_eq_iff (hi : i.Over d) (hj : j.Over d) : compare i j = .eq ↔ i = j := by
  refine ⟨eq_of_compare_eq hi.within_width hj.within_width, ?_⟩
  rintro rfl
  exact ReflOrd.compare_self

/-! ### Implicants over another domain -/

/-- The implicant over another domain that fixes the same attributes to the same values. -/
def transfer (d d' : Domain) (i : Implicant) : Implicant :=
  ⟨d.moveBits d' i.value, d.moveBits d' i.care⟩

theorem within_transfer (d' : Domain) (h : i.Within d.size) :
    (i.transfer d d').Within d'.size where
  care_lt := Domain.moveBits_lt d d' i.care
  value_and_care := by
    apply Nat.eq_of_testBit_eq
    intro p
    rw [Nat.testBit_and, Bool.and_eq_left_iff_imp]
    intro hp
    obtain ⟨q, hq, heq, hvalue⟩ := Domain.exists_of_testBit_moveBits hp
    rw [transfer, Domain.testBit_moveBits (lt_of_testBit (Domain.moveBits_lt d d' _) hp) hq heq]
    exact h.care_of_value hvalue

/-- A domain that has all attributes of another one has the same terms for its implicants. -/
theorem literals_transfer (h : i.Within d.size) (hsub : d.attributes ⊆ d'.attributes) :
    (i.transfer d d').literals d' = i.literals d := by
  have hwithin := within_transfer d' h
  refine (literals_ascending d' _).eq_of_mem_iff (literals_ascending d i) fun l => ?_
  rw [mem_literals hwithin, mem_literals h]
  constructor
  · rintro ⟨p, hp, rfl⟩
    obtain ⟨q, hq, heq, hcare⟩ := Domain.exists_of_testBit_moveBits hp
    refine ⟨q, hcare, ?_⟩
    rw [transfer, Domain.testBit_moveBits (hwithin.lt_of_care hp) hq heq, heq]
  · rintro ⟨q, hcare, rfl⟩
    have hq := h.lt_of_care hcare
    have hattribute : d.attributeAt q ∈ d.attributes := by
      rw [Domain.attributeAt_eq_getElem hq]
      exact List.getElem_mem hq
    obtain ⟨p, hp, heq⟩ := Domain.exists_attributeAt_eq (hsub hattribute)
    refine ⟨p, ?_, ?_⟩
    · rw [transfer, Domain.testBit_moveBits hp hq heq, hcare]
    · rw [transfer, Domain.testBit_moveBits hp hq heq, heq]

theorem Over.compare_transfer (hi : i.Over d) (hj : j.Over d)
    (hsub : d.attributes ⊆ d'.attributes) (hi' : (i.transfer d d').Over d')
    (hj' : (j.transfer d d').Over d') :
    compare (i.transfer d d') (j.transfer d d') = compare i j := by
  rw [← hi'.compare_literals hj', literals_transfer hi.within hsub,
    literals_transfer hj.within hsub, hi.compare_literals hj]

theorem Over.transfer (h : i.Over d) (hd' : d'.size ≤ Domain.width) :
    (i.transfer d d').Over d' := by
  rw [over_iff, Nat.min_eq_left hd']
  exact within_transfer d' h.within

/-- The order of the implicants over a domain is the lexicographic order of their literals, and it
is total: implicants that compare equal are equal, so that nothing would be decided by comparing the
fixed positions as numbers in addition. In a domain that has more attributes the implicants that fix
the same attributes have the same literals. If the domain is no larger than a word they are
implicants over it, and whenever they are they compare as before. -/
theorem order_spec (d : Domain) :
    (∀ i j : Implicant, i.Over d → j.Over d →
      (compare i j = .lt ↔ List.Lex Literal.Before (i.literals d) (j.literals d)) ∧
        (compare i j = .eq ↔ i = j) ∧
        (compare i j = .gt ↔ List.Lex Literal.Before (j.literals d) (i.literals d)) ∧
        (compare i j).then (compare i.care j.care) = compare i j) ∧
      (∀ i j k : Implicant, (compare i j).isLE → (compare j k).isLE → (compare i k).isLE) ∧
      ∀ d' : Domain, d.attributes ⊆ d'.attributes →
        (∀ i : Implicant, i.Over d → (i.transfer d d').literals d' = i.literals d ∧
          (d'.size ≤ Domain.width → (i.transfer d d').Over d')) ∧
        ∀ i j : Implicant, i.Over d → j.Over d →
          (i.transfer d d').Over d' → (j.transfer d d').Over d' →
            compare (i.transfer d d') (j.transfer d d') = compare i j := by
  refine ⟨fun i j hi hj => ⟨hi.compare_eq_lt_iff hj, hi.compare_eq_eq_iff hj,
    hi.compare_eq_gt_iff hj, ?_⟩, fun i j k => TransOrd.isLE_trans, fun d' hsub =>
    ⟨fun i hi => ⟨literals_transfer hi.within hsub, hi.transfer⟩,
      fun i j hi hj hi' hj' => hi.compare_transfer hj hsub hi' hj'⟩⟩
  -- only equal implicants leave the decision to the second comparison
  cases hcompare : compare i j with
  | eq =>
    obtain rfl := (hi.compare_eq_eq_iff hj).1 hcompare
    exact compare_self
  | lt | gt => rfl

/-- As numbers, the bits of `9` are above those of `3!9`, and they move apart when `5` comes in
between. -/
theorem order_spec_widened :
    let d : Domain := ⟨[3, 9], by decide⟩
    let d' : Domain := ⟨[3, 5, 9], by decide⟩
    let i : Implicant := ⟨1, 3⟩
    let j : Implicant := ⟨2, 2⟩
    i.Over d ∧ j.Over d ∧ d.attributes ⊆ d'.attributes ∧ compare i j = .lt ∧
      i.transfer d d' = ⟨1, 5⟩ ∧ compare (i.transfer d d') (j.transfer d d') = .lt := by
  intro d d' i j
  have hi : i.Over d := by decide
  have hj : j.Over d := by decide
  have hsub : d.attributes ⊆ d'.attributes := by decide
  obtain ⟨hlex, -, hmoved⟩ := order_spec d
  obtain ⟨hover, hcompare⟩ := hmoved d' hsub
  have hliterals : i.literals d = [⟨3, false⟩, ⟨9, true⟩] ∧ j.literals d = [⟨9, false⟩] := by
    decide
  have hlt : compare i j = .lt := by
    rw [(hlex i j hi hj).1, hliterals.1, hliterals.2]
    exact .rel (Or.inl (by decide))
  refine ⟨hi, hj, hsub, hlt, by decide, ?_⟩
  rw [hcompare i j hi hj ((hover i hi).2 (by decide)) ((hover j hj).2 (by decide)), hlt]

end Implicant

end RulePaths
