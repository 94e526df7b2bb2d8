import RulePaths.Formula.Prime
import RulePaths.Proofs.Formula.Implicants
import Mathlib.Data.List.TakeWhile

/-!
# The expansion lists the prime implicants

Rows of `n + 1` positions are rows of `n` positions with one more bit. An implicant that leaves
the highest position free implies a set of rows if both halves of the set have what it covers,
and one that fixes the position if the half that it chooses does. Applied to an implicant and
to all that arise from it by giving up a position, this tells which implicants are prime in
terms of the halves, which is how the expansion proceeds.

## Main definitions

- `Implicant.Implies` — an implicant covers rows of a set only
- `Implicant.IsPrime` — an implicant does, and ceases to if any fixed position is given up

## Main results

- `Prime.mem_ofRows` — the expansion lists the prime implicants of a set of rows
- `Prime.nodup_ofRows` — it lists each of them once
-/

namespace RulePaths

namespace Implicant

/-- An implicant over `n` positions that covers rows of a set only. -/
structure Implies (n : Nat) (rows : List Nat) (i : Implicant) : Prop extends Within n i where
  mem_of_covers : ∀ row < 2 ^ n, i.covers row = true → row ∈ rows

/-- An implicant of a set of rows that is none any more if a fixed position is given up. -/
structure IsPrime (n : Nat) (rows : List Nat) (i : Implicant) : Prop
    extends Implies n rows i where
  not_implies_drop : ∀ p, i.care.testBit p = true → ¬ (i.drop p).Implies n rows

theorem Implies.mono {n : Nat} {rows rows' : List Nat} {i : Implicant} (h : i.Implies n rows)
    (hsub : rows ⊆ rows') : i.Implies n rows' :=
  ⟨h.toWithin, fun row hrow hcovers => hsub (h.mem_of_covers row hrow hcovers)⟩

/-- An implicant covers its own value, so no implicant implies the empty set. -/
theorem Implies.ne_nil {n : Nat} {rows : List Nat} {i : Implicant} (h : i.Implies n rows) :
    rows ≠ [] := by
  have hself : i.covers i.value = true := (covers_iff h.toWithin).2 fun _ _ => rfl
  exact List.ne_nil_of_mem (h.mem_of_covers i.value h.value_lt hself)

end Implicant

namespace Prime

open Implicant

/-! ### One more bit -/

/-- A number below `2 ^ n` with bit `n` set or left clear. -/
def withBit (n : Nat) (holds : Bool) (x : Nat) : Nat :=
  if holds then x + 1 <<< n else x

theorem testBit_withBit {n x : Nat} (hx : x < 2 ^ n) (holds : Bool) (p : Nat) :
    (withBit n holds x).testBit p = if p = n then holds else x.testBit p := by
  cases holds with
  | false =>
    by_cases hp : p = n
    · simp [withBit, hp, Nat.testBit_lt_two_pow hx]
    · simp [withBit, hp]
  | true =>
    have hor : withBit n true x = 2 ^ n ||| x := by
      have := Nat.two_pow_add_eq_or_of_lt hx 1
      rw [Nat.mul_one] at this
      rw [← this]
      simp [withBit, Nat.one_shiftLeft, Nat.add_comm]
    rw [hor, Nat.testBit_or, Nat.testBit_two_pow]
    by_cases hp : p = n
    · simp [hp]
    · simp [hp, Ne.symm hp]

theorem withBit_lt {n x : Nat} (hx : x < 2 ^ n) (holds : Bool) :
    withBit n holds x < 2 ^ (n + 1) := by
  unfold withBit
  rw [Nat.one_shiftLeft, Nat.pow_succ]
  split <;> omega

theorem withBit_injective (n : Nat) (holds : Bool) : (withBit n holds).Injective := by
  intro x y h
  unfold withBit at h
  split at h <;> omega

theorem exists_withBit {n x : Nat} (hx : x < 2 ^ (n + 1)) :
    ∃ y < 2 ^ n, x = withBit n (x.testBit n) y := by
  refine ⟨x % 2 ^ n, Nat.mod_lt _ (Nat.two_pow_pos n), ?_⟩
  apply Nat.eq_of_testBit_eq
  intro p
  rw [testBit_withBit (Nat.mod_lt _ (Nat.two_pow_pos n)), Nat.testBit_mod_two_pow]
  by_cases hp : p = n
  · rw [if_pos hp, hp]
  · rw [if_neg hp]
    cases hbit : x.testBit p with
    | false => rw [Bool.and_false]
    | true =>
      have hlt : p < n + 1 := lt_of_testBit hx hbit
      rw [decide_eq_true (by omega), Bool.and_true]

/-! ### The halves of a set of rows -/

/-- The rows of a set whose bit `n` has a given value, without this bit. -/
def half (n : Nat) (holds : Bool) (rows : List Nat) : List Nat :=
  if holds then (rows.filter fun row => row.testBit n).map (· - 1 <<< n)
  else rows.filter fun row => !row.testBit n

theorem mem_half {n : Nat} {rows : List Nat} (hrows : ∀ row ∈ rows, row < 2 ^ (n + 1))
    (holds : Bool) {r : Nat} :
    r ∈ half n holds rows ↔ r < 2 ^ n ∧ withBit n holds r ∈ rows := by
  have hbit : ∀ {r}, r < 2 ^ n → (withBit n holds r).testBit n = holds := fun hr => by
    rw [testBit_withBit hr, if_pos rfl]
  cases holds with
  | false =>
    have hiff : r ∈ half n false rows ↔ r ∈ rows ∧ r.testBit n = false := by
      simp [half]
    rw [hiff]
    constructor
    · rintro ⟨hr, hclear⟩
      obtain ⟨y, hy, heq⟩ := exists_withBit (hrows r hr)
      rw [hclear] at heq
      exact ⟨heq ▸ hy, hr⟩
    · rintro ⟨hr, hmem⟩
      exact ⟨hmem, hbit hr⟩
  | true =>
    have hiff : r ∈ half n true rows ↔
        ∃ row ∈ rows, row.testBit n = true ∧ row - 1 <<< n = r := by
      simp [half, and_assoc]
    have hsub : ∀ y, withBit n true y - 1 <<< n = y := fun y => by simp [withBit]
    rw [hiff]
    constructor
    · rintro ⟨row, hrow, hset, rfl⟩
      obtain ⟨y, hy, heq⟩ := exists_withBit (hrows row hrow)
      rw [hset] at heq
      rw [heq, hsub]
      exact ⟨hy, heq ▸ hrow⟩
    · rintro ⟨hr, hmem⟩
      exact ⟨_, hmem, hbit hr, hsub r⟩

theorem half_ascending {n : Nat} {rows : List Nat} (hasc : rows.Pairwise (· < ·))
    (holds : Bool) : (half n holds rows).Pairwise (· < ·) := by
  cases holds with
  | false => exact hasc.filter _
  | true =>
    show ((rows.filter fun row => row.testBit n).map (· - 1 <<< n)).Pairwise (· < ·)
    rw [List.pairwise_map]
    refine (hasc.filter _).imp_of_mem ?_
    intro x y hx _ hxy
    have hset := (List.mem_filter.1 hx).2
    have hge : 2 ^ n ≤ x := Nat.ge_two_pow_of_testBit hset
    rw [Nat.one_shiftLeft]
    omega

theorem common_sublist (as bs : List Nat) : (common as bs).Sublist as := by
  induction as generalizing bs with
  | nil => exact List.Sublist.slnil
  | cons a as ih =>
    rw [common]
    split
    · exact List.nil_sublist _
    · split
      · exact (ih _).cons_cons a
      · exact (ih _).cons a

/-- Leaving out the numbers below `a` from the start of a list loses no other number. -/
theorem mem_dropWhile_lt {a x : Nat} {bs : List Nat} (h : a ≤ x) :
    x ∈ bs.dropWhile (· < a) ↔ x ∈ bs := by
  constructor
  · exact fun hx => (List.dropWhile_sublist _).subset hx
  · intro hx
    rw [← List.takeWhile_append_dropWhile (p := (· < a)) (l := bs)] at hx
    rcases List.mem_append.1 hx with htake | hdrop
    · have hlt : x < a := by simpa using List.mem_takeWhile_imp htake
      omega
    · exact hdrop

theorem le_of_dropWhile_lt_eq_cons {a b : Nat} {bs bs' : List Nat}
    (h : bs.dropWhile (· < a) = b :: bs') : a ≤ b := by
  have hhead := List.head?_dropWhile_not (fun x => decide (x < a)) bs
  rw [h] at hhead
  simpa using hhead

theorem mem_common {as bs : List Nat} (has : as.Pairwise (· < ·)) (hbs : bs.Pairwise (· < ·))
    {x : Nat} : x ∈ common as bs ↔ x ∈ as ∧ x ∈ bs := by
  induction as generalizing bs with
  | nil => simp [common]
  | cons a as ih =>
    obtain ⟨ha, has⟩ := List.pairwise_cons.1 has
    have hge : x ∈ a :: as → a ≤ x := by
      intro hx
      rcases List.mem_cons.1 hx with rfl | hx
      · exact Nat.le_refl _
      · exact Nat.le_of_lt (ha x hx)
    -- what is dropped is below `a`, so it is not in the first list
    have hdrop : x ∈ a :: as ∧ x ∈ bs ↔ x ∈ a :: as ∧ x ∈ bs.dropWhile (· < a) :=
      and_congr_right fun hx => (mem_dropWhile_lt (hge hx)).symm
    rw [common, hdrop]
    cases hrest : bs.dropWhile (· < a) with
    | nil => simp
    | cons b bs' =>
      have hab := le_of_dropWhile_lt_eq_cons hrest
      have hasc : (b :: bs').Pairwise (· < ·) := hrest ▸ hbs.sublist (List.dropWhile_sublist _)
      obtain ⟨hb, hbs'⟩ := List.pairwise_cons.1 hasc
      dsimp only
      split
      · next heq =>
        subst heq
        rw [List.mem_cons, ih has hbs', List.mem_cons, List.mem_cons, or_and_left]
      · next hne =>
        rw [ih has hasc]
        refine ⟨fun h => ⟨List.mem_cons_of_mem _ h.1, h.2⟩, ?_⟩
        rintro ⟨hxas, hxbs⟩
        rcases List.mem_cons.1 hxas with rfl | hxas
        · -- what follows `b` is above it, and `b` is not below `a`
          rcases List.mem_cons.1 hxbs with heq | hxbs
          · exact absurd heq hne
          · exact absurd (hb x hxbs) (Nat.not_lt.2 hab)
        · exact ⟨hxas, hxbs⟩

/-- The rows of `n` positions that stand in both halves of a set. -/
def shared (n : Nat) (rows : List Nat) : List Nat :=
  common (half n false rows) (half n true rows)

theorem mem_shared {n : Nat} {rows : List Nat} (hasc : rows.Pairwise (· < ·))
    (hrows : ∀ row ∈ rows, row < 2 ^ (n + 1)) {r : Nat} :
    r ∈ shared n rows ↔ r < 2 ^ n ∧ ∀ holds, withBit n holds r ∈ rows := by
  unfold shared
  rw [mem_common (half_ascending hasc false) (half_ascending hasc true), mem_half hrows,
    mem_half hrows, Bool.forall_bool]
  tauto

theorem shared_ascending {n : Nat} {rows : List Nat} (hasc : rows.Pairwise (· < ·)) :
    (shared n rows).Pairwise (· < ·) :=
  (half_ascending hasc false).sublist (common_sublist _ _)

theorem half_lt {n : Nat} {holds : Bool} {rows : List Nat}
    (hrows : ∀ row ∈ rows, row < 2 ^ (n + 1)) : ∀ r ∈ half n holds rows, r < 2 ^ n :=
  fun _ hr => ((mem_half hrows holds).1 hr).1

theorem shared_lt {n : Nat} {rows : List Nat} (hasc : rows.Pairwise (· < ·))
    (hrows : ∀ row ∈ rows, row < 2 ^ (n + 1)) : ∀ r ∈ shared n rows, r < 2 ^ n :=
  fun _ hr => ((mem_shared hasc hrows).1 hr).1

theorem shared_subset_half {n : Nat} {rows : List Nat} (hasc : rows.Pairwise (· < ·))
    (hrows : ∀ row ∈ rows, row < 2 ^ (n + 1)) (holds : Bool) :
    shared n rows ⊆ half n holds rows := by
  intro r hr
  obtain ⟨hlt, hmem⟩ := (mem_shared hasc hrows).1 hr
  exact (mem_half hrows holds).2 ⟨hlt, hmem holds⟩

/-! ### One more position -/

section FixPosition

variable {n : Nat} {i : Implicant}

theorem testBit_care_fixPosition (h : i.Within n) (holds : Bool) (p : Nat) :
    (fixPosition n holds i).care.testBit p = if p = n then true else i.care.testBit p :=
  testBit_withBit h.care_lt true p

theorem testBit_value_fixPosition (h : i.Within n) (holds : Bool) (p : Nat) :
    (fixPosition n holds i).value.testBit p = if p = n then holds else i.value.testBit p :=
  testBit_withBit h.value_lt holds p

theorem within_fixPosition (h : i.Within n) (holds : Bool) :
    (fixPosition n holds i).Within (n + 1) where
  care_lt := withBit_lt h.care_lt true
  value_and_care := by
    apply Nat.eq_of_testBit_eq
    intro p
    rw [Nat.testBit_and, testBit_value_fixPosition h, testBit_care_fixPosition h]
    by_cases hp : p = n
    · rw [if_pos hp, if_pos hp, Bool.and_true]
    · rw [if_neg hp, if_neg hp, ← Nat.testBit_and, h.value_and_care]

theorem fixPosition_injective (n : Nat) (holds : Bool) : (fixPosition n holds).Injective := by
  intro i j h
  obtain ⟨hvalue, hcare⟩ := Implicant.mk.inj h
  have hvalues : i.value = j.value := withBit_injective n holds hvalue
  have hcares : i.care = j.care := withBit_injective n true hcare
  cases i
  cases j
  simp_all

/-- An implicant over `n + 1` positions leaves the highest one free or fixes it besides some
    of the others. -/
theorem within_or_exists_fixPosition {j : Implicant} (h : j.Within (n + 1)) :
    j.Within n ∨ ∃ holds i, i.Within n ∧ j = fixPosition n holds i := by
  obtain ⟨care, hcare, hcareEq⟩ := exists_withBit h.care_lt
  cases hbit : j.care.testBit n with
  | false =>
    rw [hbit] at hcareEq
    left
    exact ⟨by rw [hcareEq]; exact hcare, h.value_and_care⟩
  | true =>
    rw [hbit] at hcareEq
    obtain ⟨value, hvalue, hvalueEq⟩ := exists_withBit h.value_lt
    right
    refine ⟨j.value.testBit n, ⟨value, care⟩, ⟨hcare, ?_⟩, ?_⟩
    · apply Nat.eq_of_testBit_eq
      intro p
      rw [Nat.testBit_and]
      by_cases hp : p = n
      · rw [hp, Nat.testBit_lt_two_pow hvalue, Bool.false_and]
      · have hbits := congrArg (Nat.testBit · p) h.value_and_care
        simp only [Nat.testBit_and] at hbits
        rwa [hvalueEq, hcareEq, testBit_withBit hvalue, testBit_withBit hcare, if_neg hp,
          if_neg hp] at hbits
    · have hmk : j = ⟨j.value, j.care⟩ := rfl
      rw [hmk]
      exact congrArg₂ Implicant.mk hvalueEq hcareEq

/-- An implicant that leaves the highest position free does not look at its bit. -/
theorem covers_withBit (h : i.Within n) {r : Nat} (hr : r < 2 ^ n) (holds : Bool) :
    i.covers (withBit n holds r) = i.covers r := by
  rw [Bool.eq_iff_iff, covers_iff h, covers_iff h]
  refine forall₂_congr fun p hp => ?_
  have hne : p ≠ n := Nat.ne_of_lt (h.lt_of_care hp)
  rw [testBit_withBit hr, if_neg hne]

/-- An implicant that fixes the highest position covers rows whose bit there is the fixed one. -/
theorem covers_fixPosition (h : i.Within n) {r : Nat} (hr : r < 2 ^ n) (holds bit : Bool) :
    (fixPosition n holds i).covers (withBit n bit r) = true ↔
      bit = holds ∧ i.covers r = true := by
  rw [covers_iff (within_fixPosition h holds), covers_iff h]
  constructor
  · intro hbits
    constructor
    · have hn := hbits n (by rw [testBit_care_fixPosition h, if_pos rfl])
      rwa [testBit_withBit hr, testBit_value_fixPosition h, if_pos rfl, if_pos rfl] at hn
    · intro p hp
      have hne : p ≠ n := Nat.ne_of_lt (h.lt_of_care hp)
      have hpbits := hbits p (by rw [testBit_care_fixPosition h, if_neg hne, hp])
      rwa [testBit_withBit hr, testBit_value_fixPosition h, if_neg hne, if_neg hne] at hpbits
  · rintro ⟨rfl, hbits⟩ p hp
    rw [testBit_withBit hr, testBit_value_fixPosition h]
    by_cases hpn : p = n
    · rw [if_pos hpn, if_pos hpn]
    · rw [testBit_care_fixPosition h, if_neg hpn] at hp
      rw [if_neg hpn, if_neg hpn, hbits p hp]

/-- Giving up the highest position takes it away again. -/
theorem drop_fixPosition_self (h : i.Within n) (holds : Bool) :
    (fixPosition n holds i).drop n = i := by
  have hclear : ∀ {x}, x < 2 ^ n → x.testBit n = false := Nat.testBit_lt_two_pow
  refine ((within_fixPosition h holds).drop n).ext h (fun p => ?_) fun p _ => ?_
  · rw [testBit_care_drop, testBit_care_fixPosition h]
    by_cases hp : p = n
    · simp [hp, hclear h.care_lt]
    · simp [hp]
  · rw [testBit_value_drop, testBit_value_fixPosition h]
    by_cases hp : p = n
    · simp [hp, hclear h.value_lt]
    · simp [hp]

/-- Another position may be given up before the highest one is fixed. -/
theorem drop_fixPosition (h : i.Within n) (holds : Bool) {p : Nat} (hp : p ≠ n) :
    (fixPosition n holds i).drop p = fixPosition n holds (i.drop p) := by
  refine ((within_fixPosition h holds).drop p).ext (within_fixPosition (h.drop p) holds)
    (fun q => ?_) fun q _ => ?_
  · rw [testBit_care_drop, testBit_care_fixPosition h, testBit_care_fixPosition (h.drop p),
      testBit_care_drop]
    by_cases hq : q = n
    · simp [hq, Ne.symm hp]
    · simp [hq]
  · rw [testBit_value_drop, testBit_value_fixPosition h, testBit_value_fixPosition (h.drop p),
      testBit_value_drop]
    by_cases hq : q = n
    · simp [hq, Ne.symm hp]
    · simp [hq]

end FixPosition

/-! ### Implicants and their halves -/

section Halves

variable {n : Nat} {rows : List Nat} {i : Implicant}
variable (hasc : rows.Pairwise (· < ·)) (hrows : ∀ row ∈ rows, row < 2 ^ (n + 1))
include hasc hrows

/-- An implicant that leaves the highest position free covers rows that stand in both halves. -/
theorem implies_iff_shared (h : i.Within n) :
    i.Implies (n + 1) rows ↔ i.Implies n (shared n rows) := by
  constructor
  · intro hi
    refine ⟨h, fun r hr hcovers => (mem_shared hasc hrows).2 ⟨hr, fun holds => ?_⟩⟩
    apply hi.mem_of_covers _ (withBit_lt hr holds)
    rwa [covers_withBit h hr]
  · intro hi
    refine ⟨h.mono (Nat.le_succ n), fun row hrow hcovers => ?_⟩
    obtain ⟨r, hr, heq⟩ := exists_withBit hrow
    rw [heq, covers_withBit h hr] at hcovers
    rw [heq]
    exact ((mem_shared hasc hrows).1 (hi.mem_of_covers r hr hcovers)).2 _

omit hasc in
/-- An implicant that fixes the highest position covers rows of the half that it chooses. -/
theorem implies_fixPosition (h : i.Within n) (holds : Bool) :
    (fixPosition n holds i).Implies (n + 1) rows ↔ i.Implies n (half n holds rows) := by
  constructor
  · intro hi
    refine ⟨h, fun r hr hcovers => (mem_half hrows holds).2 ⟨hr, ?_⟩⟩
    exact hi.mem_of_covers _ (withBit_lt hr holds)
      ((covers_fixPosition h hr holds holds).2 ⟨rfl, hcovers⟩)
  · intro hi
    refine ⟨within_fixPosition h holds, fun row hrow hcovers => ?_⟩
    obtain ⟨r, hr, heq⟩ := exists_withBit hrow
    rw [heq, covers_fixPosition h hr] at hcovers
    rw [heq, hcovers.1]
    exact ((mem_half hrows holds).1 (hi.mem_of_covers r hr hcovers.2)).2

theorem isPrime_iff_shared (h : i.Within n) :
    i.IsPrime (n + 1) rows ↔ i.IsPrime n (shared n rows) := by
  constructor
  · intro hi
    refine ⟨(implies_iff_shared hasc hrows h).1 hi.toImplies, fun p hp hdrop => ?_⟩
    exact hi.not_implies_drop p hp ((implies_iff_shared hasc hrows (h.drop p)).2 hdrop)
  · intro hi
    refine ⟨(implies_iff_shared hasc hrows h).2 hi.toImplies, fun p hp hdrop => ?_⟩
    exact hi.not_implies_drop p hp ((implies_iff_shared hasc hrows (h.drop p)).1 hdrop)

/-- A prime implicant of a half needs the highest position unless it is one of the common rows. -/
theorem isPrime_fixPosition (h : i.Within n) (holds : Bool) :
    (fixPosition n holds i).IsPrime (n + 1) rows ↔
      i.IsPrime n (half n holds rows) ∧ ¬ i.IsPrime n (shared n rows) := by
  have hself : ∀ {b}, (fixPosition n b i).care.testBit n = true := fun {b} => by
    rw [testBit_care_fixPosition h, if_pos rfl]
  constructor
  · intro hi
    refine ⟨⟨(implies_fixPosition hrows h holds).1 hi.toImplies, fun p hp hdrop => ?_⟩,
      fun hshared => ?_⟩
    · have hne : p ≠ n := Nat.ne_of_lt (h.lt_of_care hp)
      apply hi.not_implies_drop p (by rw [testBit_care_fixPosition h, if_neg hne, hp])
      rw [drop_fixPosition h holds hne]
      exact (implies_fixPosition hrows (h.drop p) holds).2 hdrop
    · apply hi.not_implies_drop n hself
      rw [drop_fixPosition_self h]
      exact (implies_iff_shared hasc hrows h).2 hshared.toImplies
  · rintro ⟨hi, hnot⟩
    refine ⟨(implies_fixPosition hrows h holds).2 hi.toImplies, fun p hp hdrop => ?_⟩
    by_cases hpn : p = n
    · -- the common rows are rows of the half, so nothing less would be an implicant of them
      rw [hpn, drop_fixPosition_self h, implies_iff_shared hasc hrows h] at hdrop
      exact hnot ⟨hdrop, fun q hq hq' =>
        hi.not_implies_drop q hq (hq'.mono (shared_subset_half hasc hrows holds))⟩
    · rw [drop_fixPosition h holds hpn, implies_fixPosition hrows (h.drop p)] at hdrop
      rw [testBit_care_fixPosition h, if_neg hpn] at hp
      exact hi.not_implies_drop p hp hdrop

end Halves

/-! ### The expansion -/

/-- The part of the expansion that fixes the highest position: the prime implicants of a half
    that are none of the common rows. -/
def fixedPart (n : Nat) (holds : Bool) (rows : List Nat) : List Implicant :=
  if half n holds rows = shared n rows then []
  else ((ofRows n (half n holds rows)).filter fun i =>
    !(ofRows n (shared n rows)).contains i).map (fixPosition n holds)

theorem ofRows_nil (n : Nat) : ofRows n [] = [] := by
  cases n <;> rfl

theorem ofRows_succ (n : Nat) (rows : List Nat) :
    ofRows (n + 1) rows =
      ofRows n (shared n rows) ++ fixedPart n false rows ++ fixedPart n true rows := by
  cases rows with
  | nil => simp [fixedPart, shared, half, common, ofRows_nil]
  | cons row rows => rfl

theorem mem_fixedPart {n : Nat} {holds : Bool} {rows : List Nat} {j : Implicant} :
    j ∈ fixedPart n holds rows ↔
      ∃ i, (i ∈ ofRows n (half n holds rows) ∧ i ∉ ofRows n (shared n rows)) ∧
        fixPosition n holds i = j := by
  unfold fixedPart
  split
  · next heq =>
    rw [heq]
    simp
  · simp

/-- Without positions there is one row, and one implicant that covers it. -/
theorem mem_ofRows_zero {rows : List Nat} (hrows : ∀ row ∈ rows, row < 2 ^ 0) {i : Implicant} :
    i ∈ ofRows 0 rows ↔ i.IsPrime 0 rows := by
  cases rows with
  | nil =>
    rw [ofRows_nil]
    exact ⟨fun h => absurd h List.not_mem_nil, fun h => absurd rfl h.toImplies.ne_nil⟩
  | cons row rows =>
    have hzero : row = 0 := Nat.lt_one_iff.1 (hrows row List.mem_cons_self)
    have hwithin : (⟨0, 0⟩ : Implicant).Within 0 := ⟨by decide, rfl⟩
    show i ∈ [(⟨0, 0⟩ : Implicant)] ↔ _
    rw [List.mem_singleton]
    constructor
    · rintro rfl
      refine ⟨⟨hwithin, fun r hr _ => ?_⟩, fun p hp => by simp at hp⟩
      rw [Nat.lt_one_iff.1 hr, ← hzero]
      exact List.mem_cons_self
    · intro hi
      have hcare : i.care = 0 := Nat.lt_one_iff.1 hi.care_lt
      exact hi.toWithin.ext hwithin (fun p => by rw [hcare]) fun p hp => by simp [hcare] at hp

/-- The expansion lists the prime implicants of the rows and nothing else. -/
theorem mem_ofRows {n : Nat} {rows : List Nat} (hasc : rows.Pairwise (· < ·))
    (hrows : ∀ row ∈ rows, row < 2 ^ n) {i : Implicant} :
    i ∈ ofRows n rows ↔ i.IsPrime n rows := by
  induction n generalizing rows i with
  | zero => exact mem_ofRows_zero hrows
  | succ n ih =>
    have hhalf : ∀ holds {j : Implicant},
        j ∈ ofRows n (half n holds rows) ↔ j.IsPrime n (half n holds rows) := fun holds _ =>
      ih (half_ascending hasc holds) (half_lt hrows)
    have hshared : ∀ {j : Implicant},
        j ∈ ofRows n (shared n rows) ↔ j.IsPrime n (shared n rows) :=
      ih (shared_ascending hasc) (shared_lt hasc hrows)
    have hfixed : ∀ holds {j : Implicant}, j.Within n →
        (fixPosition n holds j ∈ fixedPart n holds rows ↔
          (fixPosition n holds j).IsPrime (n + 1) rows) := by
      intro holds j hj
      rw [isPrime_fixPosition hasc hrows hj, ← hhalf, ← hshared, mem_fixedPart]
      constructor
      · rintro ⟨k, hk, heq⟩
        rwa [← fixPosition_injective n holds heq]
      · exact fun h => ⟨j, h, rfl⟩
    -- the three parts of the expansion are the three ways to treat the highest position
    rw [ofRows_succ, List.mem_append, List.mem_append]
    constructor
    · have hpart : ∀ holds, i ∈ fixedPart n holds rows → i.IsPrime (n + 1) rows := by
        intro holds hi
        obtain ⟨j, hj, rfl⟩ := mem_fixedPart.1 hi
        exact (hfixed holds ((hhalf holds).1 hj.1).toWithin).1 hi
      rintro ((hi | hi) | hi)
      · rw [hshared] at hi
        exact (isPrime_iff_shared hasc hrows hi.toWithin).2 hi
      · exact hpart false hi
      · exact hpart true hi
    · intro hi
      rcases within_or_exists_fixPosition hi.toWithin with hfree | ⟨holds, j, hj, rfl⟩
      · left
        left
        exact hshared.2 ((isPrime_iff_shared hasc hrows hfree).1 hi)
      · rw [← hfixed holds hj] at hi
        cases holds with
        | false => exact .inl (.inr hi)
        | true => exact .inr hi

/-- The expansion lists no implicant twice. -/
theorem nodup_ofRows {n : Nat} {rows : List Nat} (hasc : rows.Pairwise (· < ·))
    (hrows : ∀ row ∈ rows, row < 2 ^ n) : (ofRows n rows).Nodup := by
  induction n generalizing rows with
  | zero =>
    cases rows with
    | nil => exact List.nodup_nil
    | cons row rows => exact List.nodup_singleton _
  | succ n ih =>
    have hpart : ∀ holds, (fixedPart n holds rows).Nodup := by
      intro holds
      unfold fixedPart
      split
      · exact List.nodup_nil
      · exact ((ih (half_ascending hasc holds) (half_lt hrows)).filter _).map
          (fixPosition_injective n holds)
    have hbits : ∀ {holds j}, j ∈ fixedPart n holds rows →
        j.care.testBit n = true ∧ j.value.testBit n = holds := by
      intro holds j hj
      obtain ⟨i, ⟨hi, _⟩, rfl⟩ := mem_fixedPart.1 hj
      rw [mem_ofRows (half_ascending hasc holds) (half_lt hrows)] at hi
      rw [testBit_care_fixPosition hi.toWithin, testBit_value_fixPosition hi.toWithin,
        if_pos rfl, if_pos rfl]
      exact ⟨rfl, rfl⟩
    have hfree : ∀ {j}, j ∈ ofRows n (shared n rows) → j.care.testBit n = false := by
      intro j hj
      rw [mem_ofRows (shared_ascending hasc) (shared_lt hasc hrows)] at hj
      exact Nat.testBit_lt_two_pow hj.care_lt
    rw [ofRows_succ]
    -- bit `n` of `care`, and then that of `value`, tells the three parts apart
    refine ((ih (shared_ascending hasc) (shared_lt hasc hrows)).append (hpart false) ?_).append
      (hpart true) ?_
    · intro j hj hfixed
      exact Bool.false_ne_true ((hfree hj).symm.trans (hbits hfixed).1)
    · intro j hj hset
      rcases List.mem_append.1 hj with hj | hclear
      · exact Bool.false_ne_true ((hfree hj).symm.trans (hbits hset).1)
      · exact Bool.false_ne_true ((hbits hclear).2.symm.trans (hbits hset).2)

end Prime

namespace TruthTable

/-- The primes of the table of an expression are the prime implicants of its minterms. -/
theorem mem_primes {e : Expr} {i : Implicant} :
    i ∈ (ofExpr e).primes ↔ i.IsPrime (Domain.ofExpr e).size (ofExpr e).minterms := by
  unfold primes Implicant.sort
  rw [List.mem_mergeSort]
  exact Prime.mem_ofRows (minterms_ascending e) fun row hrow => (mem_minterms.1 hrow).1

theorem nodup_primes (e : Expr) : (ofExpr e).primes.Nodup := by
  unfold primes Implicant.sort
  rw [(List.mergeSort_perm _ _).nodup_iff]
  exact Prime.nodup_ofRows (minterms_ascending e) fun row hrow => (mem_minterms.1 hrow).1

end TruthTable

end RulePaths
