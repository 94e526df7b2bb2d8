import RulePaths.Proofs.Order.Ascending
import Mathlib.Data.Finset.Card

/-!
# Product terms

A term whose literals ascend by attribute is nothing but the set of its literals, and every set
of literals that some assignment makes true is such a term.

## Main definitions

- `Term.Ascending` — the literals ascend by attribute

## Main results

- `Term.Ascending.eq_of_mem_iff` — ascending terms with the same literals are equal
- `Term.exists_ascending` — a set of literals that can be true is an ascending term
-/

namespace RulePaths

/-- Literals of one attribute that are true under the same assignment are equal. -/
theorem Literal.eq_of_eval {v : Assignment} {k l : Literal} (hk : k.eval v = true)
    (hl : l.eval v = true) (h : k.index = l.index) : k = l := by
  obtain ⟨a, negated⟩ := k
  obtain ⟨b, negated'⟩ := l
  obtain rfl : a = b := h
  simp only [Literal.eval, bne_iff_ne, ne_eq] at hk hl
  rw [(Bool.eq_not_of_ne (Ne.symm hk)).trans (Bool.eq_not_of_ne (Ne.symm hl)).symm]

theorem Literal.eval_mk (v : Assignment) (a : Nat) (holds : Bool) :
    Literal.eval v ⟨a, !holds⟩ = true ↔ v a = holds := by
  unfold Literal.eval
  cases v a <;> cases holds <;> simp

namespace Term

theorem eval_iff {v : Assignment} {t : Term} :
    t.eval v = true ↔ ∀ l ∈ t, l.eval v = true :=
  List.all_eq_true

theorem eval_of_sublist {p t : Term} (h : p.Sublist t) {v : Assignment}
    (ht : t.eval v = true) : p.eval v = true :=
  eval_iff.2 fun l hl => eval_iff.1 ht l (h.subset hl)

/-! ### Ascending terms -/

/-- The literals ascend by attribute, so that none is mentioned twice. -/
def Ascending (t : Term) : Prop :=
  t.Pairwise fun k l => k.index < l.index

theorem Ascending.nodup {t : Term} (h : t.Ascending) : t.Nodup := by
  refine h.imp ?_
  rintro k l hlt rfl
  exact Nat.lt_irrefl _ hlt

theorem Ascending.eq_of_mem_iff {s t : Term} (hs : s.Ascending) (ht : t.Ascending)
    (h : ∀ l, l ∈ s ↔ l ∈ t) : s = t := by
  have hperm : s.Perm t := (List.perm_ext_iff_of_nodup hs.nodup ht.nodup).2 h
  refine hperm.eq_of_pairwise ?_ hs ht
  intro k l _ _ hkl hlk
  exact absurd hkl (Nat.lt_asymm hlk)

/-- An ascending term has at most one literal of an attribute. -/
theorem Ascending.eq_of_index_eq {t : Term} (h : t.Ascending) {k l : Literal} (hk : k ∈ t)
    (hl : l ∈ t) (heq : k.index = l.index) : k = l := by
  induction t with
  | nil => exact absurd hk List.not_mem_nil
  | cons m t ih =>
    obtain ⟨hm, ht⟩ := List.pairwise_cons.1 h
    rcases List.mem_cons.1 hk with rfl | hkt
    · rcases List.mem_cons.1 hl with rfl | hlt
      · rfl
      · exact absurd heq (Nat.ne_of_lt (hm l hlt))
    · rcases List.mem_cons.1 hl with rfl | hlt
      · exact absurd heq.symm (Nat.ne_of_lt (hm k hkt))
      · exact ih ht hkt hlt

/-- A set of literals that some assignment makes true is an ascending term. -/
theorem exists_ascending {t : Finset Literal} {v : Assignment}
    (h : ∀ l ∈ t, l.eval v = true) :
    ∃ s : Term, s.Ascending ∧ (∀ l, l ∈ s ↔ l ∈ t) ∧ s.length = t.card := by
  have hmem : ∀ l, l ∈ ascending t.toList ↔ l ∈ t := fun l => by
    rw [mem_ascending, Finset.mem_toList]
  refine ⟨ascending t.toList, ?_, hmem, ?_⟩
  · have hnodup : (ascending t.toList).Nodup :=
      (ascending_perm t.toList).nodup_iff.2 t.nodup_toList
    refine ((pairwise_ascending t.toList).and hnodup).imp_of_mem ?_
    rintro k l hk hl ⟨hle, hne⟩
    have hindex : k.index ≤ l.index :=
      Nat.isLE_compare.1 (Ordering.isLE_left_of_isLE_then hle)
    refine Nat.lt_of_le_of_ne hindex fun heq => hne ?_
    exact Literal.eq_of_eval (h k ((hmem k).1 hk)) (h l ((hmem l).1 hl)) heq
  · rw [length_ascending, Finset.length_toList]

end Term

end RulePaths
