import RulePaths.Proofs.Formula.Minimization
import RulePaths.Proofs.Path.Text

/-!
# The paths of a formula

The terms and the paths of a formula do not depend on the limit of the minimizer, as long as it is
high enough. Every path of a formula names an attribute, and no path comes twice.

## Main definitions

- `Minimizer.termsOf`, `Minimizer.pathsOf` — the terms and the paths of a formula

## Main results

- `Minimizer.pathsOf_of_paths` — the paths under any limit are the paths of the formula
- `Minimizer.terms_of_minimize` — the terms are equivalent to the formula
-/

namespace RulePaths

namespace Minimizer

/-- The terms of the minimal cover of a formula. A formula that has no cover has no terms. -/
def termsOf (formula : String) : List Term :=
  match (ofLimit ceiling).minimize formula with
  | .ok c => c.terms
  | .error _ => []

/-- The paths of a formula. -/
def pathsOf (formula : String) : List String :=
  (termsOf formula).map Term.render

/-- What is known of the terms of a formula that has a cover. -/
structure Terms (formula : String) (ts : List Term) : Prop where
  equivalent : ∃ e, Expr.parse formula = .ok e ∧ ∀ v, ts.any (Term.eval v) = e.eval v
  ascending : ∀ t ∈ ts, t.Ascending
  ne_nil : ∀ t ∈ ts, t ≠ []
  nodup : ts.Nodup

variable {m : Minimizer} {formula : String} {c : Cover} {paths : List String}

theorem terms_of_minimize (h : m.minimize formula = .ok c) :
    termsOf formula = c.terms ∧ Terms formula c.terms := by
  have hparse : ∃ e, Expr.parse formula = .ok e := by
    cases he : Expr.parse formula with
    | ok e => exact ⟨e, rfl⟩
    | error e =>
      rw [minimize, he] at h
      cases h
  obtain ⟨e, he⟩ := hparse
  have hc := h
  rw [minimize_of_parse he] at hc
  split at hc
  · cases hc
  next hlimit =>
  split at hc
  · cases hc
  next hunsat =>
  split at hc
  · cases hc
  next htaut =>
  cases hc
  have hle : e.mentions.dedup.length ≤ m.limit := Nat.not_lt.1 hlimit
  have hceiling : ¬ (ofLimit ceiling).limit < e.mentions.dedup.length :=
    Nat.not_lt.2 (Nat.le_trans hle m.limit_le)
  have hminimal : IsMinimalSum (fun v => e.eval v) (cover (TruthTable.ofExpr e)).terms :=
    isMinimalSum_cover (size_ofExpr_le hle)
  refine ⟨?_, ?_⟩
  · rw [termsOf, minimize_of_parse he, if_neg hceiling, if_neg hunsat, if_neg htaut]
  · exact {
      equivalent := ⟨e, he, hminimal.any_eval⟩
      ascending := fun t ht => (hminimal.isPrime t ht).ascending
      ne_nil := by
        -- the empty term is always true
        rintro t ht rfl
        exact htaut (TruthTable.isTautology_iff.2 fun v => (hminimal.isPrime _ ht).implies v rfl)
      nodup := hminimal.nodup }

/-- A formula that has a cover is true under some assignment, so some term is. -/
theorem terms_ne_nil (h : m.minimize formula = .ok c) : c.terms ≠ [] := by
  obtain ⟨e, he, heval⟩ := (terms_of_minimize h).2.equivalent
  intro hnil
  have hfalse : ∀ v, e.eval v = false := fun v => by rw [← heval v, hnil]; rfl
  rw [minimize_of_parse he, if_pos (TruthTable.isUnsatisfiable_iff.2 hfalse)] at h
  split at h <;> cases h

theorem length_paths_pos (h : m.paths formula = .ok paths) : 0 < paths.length := by
  rw [Minimizer.paths] at h
  cases hc : m.minimize formula with
  | error e =>
    rw [hc] at h
    cases h
  | ok c =>
    rw [hc] at h
    cases h
    rw [Cover.paths, List.length_map]
    exact List.length_pos_of_ne_nil (terms_ne_nil hc)

/-- The paths under any limit are the paths of the formula. -/
theorem pathsOf_of_paths (h : m.paths formula = .ok paths) :
    paths = pathsOf formula ∧ Terms formula (termsOf formula) := by
  rw [Minimizer.paths] at h
  cases hc : m.minimize formula with
  | error e =>
    rw [hc] at h
    cases h
  | ok c =>
    rw [hc] at h
    cases h
    obtain ⟨heq, hterms⟩ := terms_of_minimize hc
    exact ⟨by rw [pathsOf, heq]; rfl, heq ▸ hterms⟩

namespace Terms

variable (h : Terms formula (termsOf formula))
include h

theorem nodup_paths : (pathsOf formula).Nodup :=
  h.nodup.map Path.render_injective

end Terms

end Minimizer

end RulePaths
