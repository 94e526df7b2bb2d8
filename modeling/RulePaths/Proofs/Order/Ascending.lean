import RulePaths.Formula.Term
import Mathlib.Data.List.Perm.Subperm
import Mathlib.Data.List.Sort

/-!
# Ascending sequences and their lexicographic order

Covers are compared by their ascending sequences of terms, so the questions about ties are
questions about the lexicographic order of sorted lists. Two of them decide whether a tie may
be broken on a part of a cover: adding the same values on both sides, and completing a list by
the lowest values that are left.

## Main definitions

- `ascending` — the values of a list in ascending order, repeats kept

## Main results

- `ascending_eq_of_perm` — the ascending sequence depends on the values only
- `compare_eq_lt_iff_lex` — lists are compared lexicographically
- `compare_ascending_append` — common values do not change how two ascending sequences of
  equal length compare
- `isLE_ascending_append_take` — the lowest values of an ascending list complete a list to the
  lowest ascending sequence
-/

namespace RulePaths

open Std

/-- Literals are compared by index and then by sign, both of which are total orders. -/
instance : TransOrd Literal :=
  inferInstanceAs (TransCmp (compareLex (compareOn Literal.index) (compareOn Literal.negated)))

instance : LawfulEqOrd Literal where
  compare_self {a} := by
    show (compare a.index a.index).then (compare a.negated a.negated) = .eq
    simp
  eq_of_compare {a b} h := by
    obtain ⟨hindex, hnegated⟩ := Ordering.then_eq_eq.1 h
    cases a
    cases b
    simp_all

section

variable {α β : Type} [Ord α] [Ord β]

/-- The values of a list in ascending order, repeats kept. -/
def ascending (l : List α) : List α :=
  l.mergeSort fun a b => (compare a b).isLE

theorem ascending_perm (l : List α) : (ascending l).Perm l :=
  List.mergeSort_perm l _

@[simp] theorem length_ascending (l : List α) : (ascending l).length = l.length :=
  List.length_mergeSort l

@[simp] theorem mem_ascending {a : α} {l : List α} : a ∈ ascending l ↔ a ∈ l :=
  List.mem_mergeSort

theorem map_ascending {f : α → β} {l : List α}
    (hf : ∀ a ∈ l, ∀ b ∈ l, compare (f a) (f b) = compare a b) :
    (ascending l).map f = ascending (l.map f) := by
  apply List.map_mergeSort
  intro a ha b hb
  rw [hf a ha b hb]

/-- A map that keeps the order of values keeps the lexicographic order of lists. -/
theorem compare_map {f : α → β} {as bs : List α}
    (hf : ∀ a ∈ as, ∀ b ∈ bs, compare (f a) (f b) = compare a b) :
    compare (as.map f) (bs.map f) = compare as bs := by
  induction as generalizing bs with
  | nil => cases bs <;> rfl
  | cons a as ih =>
    cases bs with
    | nil => rfl
    | cons b bs =>
      rw [List.map_cons, List.map_cons, List.compare_cons_cons, List.compare_cons_cons,
        hf a (by simp) b (by simp),
        ih fun x hx y hy => hf x (List.mem_cons_of_mem _ hx) y (List.mem_cons_of_mem _ hy)]

/-- Lists are compared lexicographically: a list comes before its extensions, and of others the one
with the lower value where they first differ. -/
theorem compare_eq_lt_iff_lex [LawfulEqOrd α] {before : α → α → Prop}
    (h : ∀ a b, compare a b = .lt ↔ before a b) {as bs : List α} :
    compare as bs = .lt ↔ List.Lex before as bs := by
  induction as generalizing bs with
  | nil =>
    cases bs with
    | nil => exact iff_of_false nofun List.not_lex_nil
    | cons b bs => exact iff_of_true rfl .nil
  | cons a as ih =>
    cases bs with
    | nil => exact iff_of_false nofun List.not_lex_nil
    | cons b bs =>
      rw [List.compare_cons_cons, Ordering.then_eq_lt, List.cons_lex_cons_iff, h, ih,
        Std.compare_eq_iff_eq]

theorem ascending_of_pairwise {l : List α} (h : l.Pairwise fun a b => (compare a b).isLE) :
    ascending l = l :=
  List.mergeSort_of_pairwise h

variable [TransOrd α]

theorem isLE_total (a b : α) : (compare a b).isLE ∨ (compare b a).isLE := by
  rw [OrientedOrd.eq_swap (a := b) (b := a)]
  cases compare a b <;> simp

theorem pairwise_ascending (l : List α) :
    (ascending l).Pairwise fun a b => (compare a b).isLE := by
  apply List.pairwise_mergeSort
  · intro a b c hab hbc
    exact TransOrd.isLE_trans hab hbc
  · intro a b
    simpa using isLE_total a b

variable [LawfulEqOrd α]

theorem eq_of_perm_of_pairwise {as bs : List α} (h : as.Perm bs)
    (has : as.Pairwise fun a b => (compare a b).isLE)
    (hbs : bs.Pairwise fun a b => (compare a b).isLE) : as = bs := by
  refine h.eq_of_pairwise ?_ has hbs
  intro a b _ _ hab hba
  exact LawfulEqOrd.eq_of_compare (OrientedCmp.isLE_antisymm hab hba)

theorem ascending_eq_of_perm {as bs : List α} (h : as.Perm bs) :
    ascending as = ascending bs :=
  eq_of_perm_of_pairwise ((ascending_perm as).trans (h.trans (ascending_perm bs).symm))
    (pairwise_ascending as) (pairwise_ascending bs)

/-- Values that can be told apart by what they are sorted by have only one order. -/
theorem mergeSort_eq_of_perm {γ : Type} {f : γ → α} {as bs : List γ} (h : as.Perm bs)
    (hf : ∀ a ∈ as, ∀ b ∈ as, f a = f b → a = b) :
    as.mergeSort (fun a b => (compare (f a) (f b)).isLE) =
      bs.mergeSort fun a b => (compare (f a) (f b)).isLE := by
  have hpairwise : ∀ l : List γ, (l.mergeSort fun a b => (compare (f a) (f b)).isLE).Pairwise
      fun a b => (compare (f a) (f b)).isLE := by
    intro l
    apply List.pairwise_mergeSort
    · exact fun a b c hab hbc => TransOrd.isLE_trans hab hbc
    · exact fun a b => by simpa using isLE_total (f a) (f b)
  refine List.Perm.eq_of_pairwise (fun a b ha hb hab hba => ?_) (hpairwise as) (hpairwise bs)
    ((List.mergeSort_perm as _).trans (h.trans (List.mergeSort_perm bs _).symm))
  rw [List.mem_mergeSort] at ha hb
  exact hf a ha b (h.mem_iff.2 hb)
    (LawfulEqOrd.eq_of_compare (OrientedCmp.isLE_antisymm hab hba))

/-- The ascending sequence of a longer list is that of the shorter one with the new value put
    in its place. -/
theorem ascending_cons (a : α) (l : List α) :
    ascending (a :: l) = (ascending l).orderedInsert (fun x y => (compare x y).isLE) a := by
  refine eq_of_perm_of_pairwise ?_ (pairwise_ascending _) ?_
  · refine (ascending_perm _).trans ?_
    exact ((ascending_perm l).cons a).symm.trans (List.perm_orderedInsert _ a _).symm
  · have : IsTrans α fun x y => (compare x y).isLE := ⟨fun _ _ _ => TransOrd.isLE_trans⟩
    have : Std.Total fun x y : α => (compare x y).isLE := ⟨isLE_total⟩
    exact (pairwise_ascending l).orderedInsert a _

/-- Putting the same value in its place on both sides keeps the order of lists of equal
    length. -/
theorem compare_orderedInsert (x : α) {as bs : List α} (h : as.length = bs.length) :
    compare (as.orderedInsert (fun x y => (compare x y).isLE) x)
      (bs.orderedInsert (fun x y => (compare x y).isLE) x) = compare as bs := by
  induction as generalizing bs with
  | nil =>
    obtain rfl : bs = [] := List.length_eq_zero_iff.1 h.symm
    simp
  | cons a as ih =>
    cases bs with
    | nil => simp at h
    | cons b bs =>
      have hlen : as.length = bs.length := by simpa using h
      rw [List.orderedInsert_cons, List.orderedInsert_cons]
      by_cases ha : (compare x a).isLE
      · by_cases hb : (compare x b).isLE
        · rw [if_pos ha, if_pos hb, List.compare_cons_cons (x := x), compare_self]
          rfl
        · -- `b` comes before `x`, which is not above `a`
          have hbx : compare b x = .lt := OrientedCmp.lt_of_not_isLE hb
          have hba : compare b a = .lt := TransCmp.lt_of_lt_of_isLE hbx ha
          rw [if_pos ha, if_neg hb, List.compare_cons_cons, List.compare_cons_cons,
            OrientedCmp.gt_of_lt hbx, OrientedCmp.gt_of_lt hba]
          rfl
      · have hax : compare a x = .lt := OrientedCmp.lt_of_not_isLE ha
        by_cases hb : (compare x b).isLE
        · have hab : compare a b = .lt := TransCmp.lt_of_lt_of_isLE hax hb
          rw [if_neg ha, if_pos hb, List.compare_cons_cons, List.compare_cons_cons, hax, hab]
          rfl
        · rw [if_neg ha, if_neg hb, List.compare_cons_cons, List.compare_cons_cons, ih hlen]

/-- Common values do not change how two ascending sequences of equal length compare. -/
theorem compare_ascending_append (cs : List α) {as bs : List α} (h : as.length = bs.length) :
    compare (ascending (cs ++ as)) (ascending (cs ++ bs)) =
      compare (ascending as) (ascending bs) := by
  induction cs with
  | nil => rfl
  | cons c cs ih =>
    rw [List.cons_append, List.cons_append, ascending_cons, ascending_cons,
      compare_orderedInsert c (by simp [h]), ih]

omit [LawfulEqOrd α] in
/-- Of all parts of an ascending list that have a given length, its start is the lowest. -/
theorem isLE_take_of_sublist {as bs : List α}
    (hbs : bs.Pairwise fun a b => (compare a b).isLE) (h : as.Sublist bs) :
    (compare (bs.take as.length) as).isLE := by
  induction bs generalizing as with
  | nil =>
    obtain rfl : as = [] := List.sublist_nil.1 h
    rfl
  | cons b bs ih =>
    cases as with
    | nil => rfl
    | cons a as =>
      obtain ⟨hb, hbs⟩ := List.pairwise_cons.1 hbs
      have htail : as.Sublist bs := h.tail
      have hle : (compare b a).isLE := by
        rcases List.mem_cons.1 (h.subset (List.mem_cons_self ..)) with rfl | ha
        · exact ReflOrd.isLE_rfl
        · exact hb a ha
      rw [List.length_cons, List.take_succ_cons, List.compare_cons_cons,
        Ordering.isLE_then_iff_and]
      exact ⟨hle, Or.inr (ih hbs htail)⟩

/-- The lowest values of an ascending list complete a list to an ascending sequence that comes
    no later than the one of any other completion of the same length. -/
theorem isLE_ascending_append_take {cs as bs : List α}
    (hbs : bs.Pairwise fun a b => (compare a b).isLE) (h : as.Subperm bs) :
    (compare (ascending (cs ++ bs.take as.length)) (ascending (cs ++ as))).isLE := by
  obtain ⟨as', hperm, hsub⟩ := h
  have has : ascending as = as' :=
    (ascending_eq_of_perm hperm.symm).trans (ascending_of_pairwise (hbs.sublist hsub))
  have hlen : (bs.take as.length).length = as.length := by
    rw [List.length_take, ← hperm.length_eq]
    exact min_eq_left hsub.length_le
  rw [compare_ascending_append cs hlen, has,
    ascending_of_pairwise (hbs.sublist (List.take_sublist _ _)), ← hperm.length_eq]
  exact isLE_take_of_sublist hbs hsub

end

end RulePaths
