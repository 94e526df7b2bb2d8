import RulePaths.Formula.TruthTable
import Mathlib.Data.Nat.Bitwise
import Mathlib.Data.List.Dedup

/-!
# Rows and assignments

A row of a domain fixes the truth of the attributes of the domain only, yet this is all that an
expression over them depends on. So the rows of a truth table stand for all assignments: each
assignment has its row, and an expression is true under the assignment exactly if the row is a
minterm of its table.

## Main definitions

- `Domain.attributeAt` — the attribute at a position
- `Domain.row` — the row that an assignment has in a domain

## Main results

- `Expr.eval_congr` — the value of an expression depends on what it mentions only
- `TruthTable.row_mem_minterms` — the row of an assignment is a minterm if and only if the
  expression is true under the assignment
- `TruthTable.isUnsatisfiable_iff`, `TruthTable.isTautology_iff` — what the two degenerate
  tables mean
-/

namespace RulePaths

namespace Expr

mutual

/-- The value of an expression depends on the attributes that it mentions only. -/
theorem eval_congr {v w : Assignment} :
    (e : Expr) → (∀ a ∈ e.mentions, v a = w a) → e.eval v = e.eval w
  | .atom a, h => h a (by simp [mentions])
  | .not e, h => by
    rw [eval, eval, eval_congr e h]
  | .and es, h => by
    rw [eval, eval, evalAll_congr es h]
  | .or es, h => by
    rw [eval, eval, evalAny_congr es h]

theorem evalAll_congr {v w : Assignment} :
    (es : List Expr) → (∀ a ∈ mentionsAll es, v a = w a) → evalAll v es = evalAll w es
  | [], _ => rfl
  | e :: es, h => by
    rw [evalAll, evalAll,
      eval_congr e fun a ha => h a (List.mem_append_left _ ha),
      evalAll_congr es fun a ha => h a (List.mem_append_right _ ha)]

theorem evalAny_congr {v w : Assignment} :
    (es : List Expr) → (∀ a ∈ mentionsAll es, v a = w a) → evalAny v es = evalAny w es
  | [], _ => rfl
  | e :: es, h => by
    rw [evalAny, evalAny,
      eval_congr e fun a ha => h a (List.mem_append_left _ ha),
      evalAny_congr es fun a ha => h a (List.mem_append_right _ ha)]

end

end Expr

theorem lt_of_testBit {n x p : Nat} (hx : x < 2 ^ n) (hp : x.testBit p = true) : p < n :=
  (Nat.pow_lt_pow_iff_right (by decide)).1
    (Nat.lt_of_le_of_lt (Nat.ge_two_pow_of_testBit hp) hx)

namespace Domain

/-- The attribute at a position of a domain. -/
def attributeAt (d : Domain) (p : Nat) : Nat :=
  d.attributes.getD p 0

/-- The row of an assignment: the bit at a position is the value of the attribute there. -/
def row (d : Domain) (v : Assignment) : Nat :=
  Nat.ofBits fun p : Fin d.size => v (d.attributeAt p)

theorem attributeAt_eq_getElem {d : Domain} {p : Nat} (hp : p < d.attributes.length) :
    d.attributeAt p = d.attributes[p] := by
  simp [attributeAt, hp]

theorem exists_attributeAt_eq {d : Domain} {a : Nat} (ha : a ∈ d.attributes) :
    ∃ p < d.size, d.attributeAt p = a := by
  obtain ⟨p, hp, heq⟩ := List.getElem_of_mem ha
  exact ⟨p, hp, by rw [attributeAt_eq_getElem hp, heq]⟩

theorem attributeAt_lt {d : Domain} {p q : Nat} (hpq : p < q) (hq : q < d.size) :
    d.attributeAt p < d.attributeAt q := by
  rw [attributeAt_eq_getElem (Nat.lt_trans hpq hq), attributeAt_eq_getElem hq]
  exact List.pairwise_iff_getElem.1 d.ascending p q _ hq hpq

theorem compare_attributeAt {d : Domain} {p q : Nat} (hp : p < d.size) (hq : q < d.size) :
    compare (d.attributeAt p) (d.attributeAt q) = compare p q := by
  rcases Nat.lt_trichotomy p q with hlt | rfl | hgt
  · rw [Nat.compare_eq_lt.2 hlt, Nat.compare_eq_lt.2 (attributeAt_lt hlt hq)]
  · rw [Nat.compare_eq_eq.2 rfl, Nat.compare_eq_eq.2 rfl]
  · rw [Nat.compare_eq_gt.2 hgt, Nat.compare_eq_gt.2 (attributeAt_lt hgt hp)]

theorem attributeAt_inj {d : Domain} {p q : Nat} (hp : p < d.size) (hq : q < d.size)
    (h : d.attributeAt p = d.attributeAt q) : p = q := by
  have hcompare := compare_attributeAt hp hq
  rw [Nat.compare_eq_eq.2 h] at hcompare
  exact Nat.compare_eq_eq.1 hcompare.symm

theorem position?_attributeAt {d : Domain} {p : Nat} (hp : p < d.size) :
    d.position? (d.attributeAt p) = some p := by
  unfold position?
  rw [List.idxOf?_eq_some_iff]
  refine ⟨hp, (attributeAt_eq_getElem hp).symm, ?_⟩
  intro q hq
  have hne := Nat.ne_of_lt (attributeAt_lt hq hp)
  rwa [attributeAt_eq_getElem (Nat.lt_trans hq hp)] at hne

theorem assignment_attributeAt {d : Domain} {p row : Nat} (hp : p < d.size) :
    d.assignment row (d.attributeAt p) = row.testBit p := by
  unfold assignment
  rw [position?_attributeAt hp]

theorem row_lt (d : Domain) (v : Assignment) : d.row v < 2 ^ d.size :=
  Nat.ofBits_lt_two_pow _

theorem testBit_row {d : Domain} {v : Assignment} {p : Nat} (hp : p < d.size) :
    (d.row v).testBit p = v (d.attributeAt p) :=
  Nat.testBit_ofBits_lt _ p hp

theorem row_assignment {d : Domain} {row : Nat} (hrow : row < 2 ^ d.size) :
    d.row (d.assignment row) = row := by
  apply Nat.eq_of_testBit_eq
  intro p
  by_cases hp : p < d.size
  · rw [testBit_row hp, assignment_attributeAt hp]
  · rw [Bool.eq_false_iff.2 fun h => hp (lt_of_testBit (row_lt d _) h),
      Bool.eq_false_iff.2 fun h => hp (lt_of_testBit hrow h)]

theorem assignment_row {d : Domain} {v : Assignment} {a : Nat} (ha : a ∈ d.attributes) :
    d.assignment (d.row v) a = v a := by
  obtain ⟨p, hp, rfl⟩ := exists_attributeAt_eq ha
  rw [assignment_attributeAt hp, testBit_row hp]

/-- The domain of an expression has as many attributes as the expression mentions, each counted
    once. -/
theorem size_ofExpr (e : Expr) : (ofExpr e).size = e.mentions.dedup.length := by
  have hnodup : (ofExpr e).attributes.Nodup :=
    (ofExpr e).ascending.imp fun h => Nat.ne_of_lt h
  have hperm : (ofExpr e).attributes.Perm e.mentions.dedup := by
    rw [List.perm_ext_iff_of_nodup hnodup (List.nodup_dedup _)]
    intro a
    rw [mem_ofExpr, List.mem_dedup]
  exact hperm.length_eq

end Domain

namespace TruthTable

variable {e : Expr}

theorem mem_minterms {row : Nat} :
    row ∈ (ofExpr e).minterms ↔
      row < 2 ^ (Domain.ofExpr e).size ∧ e.eval ((Domain.ofExpr e).assignment row) = true := by
  unfold ofExpr
  rw [List.mem_filter, List.mem_range, Nat.one_shiftLeft]

/-- An expression has the same value under an assignment as under the one of its row. -/
theorem eval_assignment_row (v : Assignment) :
    e.eval ((Domain.ofExpr e).assignment ((Domain.ofExpr e).row v)) = e.eval v := by
  apply Expr.eval_congr
  intro a ha
  exact Domain.assignment_row (Domain.mem_ofExpr.2 ha)

/-- The row of an assignment is a minterm if and only if the expression is true under the
    assignment. -/
theorem row_mem_minterms {v : Assignment} :
    (Domain.ofExpr e).row v ∈ (ofExpr e).minterms ↔ e.eval v = true := by
  rw [mem_minterms, eval_assignment_row]
  exact ⟨fun h => h.2, fun h => ⟨Domain.row_lt _ v, h⟩⟩

theorem minterms_ascending (e : Expr) : (ofExpr e).minterms.Pairwise (· < ·) :=
  List.pairwise_lt_range.filter _

/-- A table is unsatisfiable if and only if no assignment makes the expression true. -/
theorem isUnsatisfiable_iff :
    (ofExpr e).isUnsatisfiable = true ↔ ∀ v, e.eval v = false := by
  unfold isUnsatisfiable
  rw [List.isEmpty_iff, List.eq_nil_iff_forall_not_mem]
  constructor
  · intro h v
    exact Bool.eq_false_iff.2 fun htrue => h _ (row_mem_minterms.2 htrue)
  · intro h row hrow
    have htrue := (mem_minterms.1 hrow).2
    rw [h] at htrue
    exact Bool.false_ne_true htrue

/-- A table is tautological if and only if every assignment makes the expression true. -/
theorem isTautology_iff :
    (ofExpr e).isTautology = true ↔ ∀ v, e.eval v = true := by
  have hcount : (ofExpr e).isTautology = true ↔
      ∀ row < 2 ^ (Domain.ofExpr e).size,
        e.eval ((Domain.ofExpr e).assignment row) = true := by
    have hrange : (ofExpr e).rowCount = (List.range (1 <<< (Domain.ofExpr e).size)).length := by
      simp [rowCount, ofExpr]
    unfold isTautology
    rw [beq_iff_eq, hrange]
    unfold ofExpr
    rw [List.length_filter_eq_length_iff]
    simp [Nat.one_shiftLeft]
  rw [hcount]
  constructor
  · intro h v
    rw [← eval_assignment_row v]
    exact h _ (Domain.row_lt _ v)
  · intro h row _
    exact h _

end TruthTable

end RulePaths
