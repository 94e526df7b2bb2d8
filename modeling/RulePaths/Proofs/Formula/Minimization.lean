import RulePaths.Proofs.Formula.MinimalSums

/-!
# What minimization guarantees

A formula that parses, has few enough attributes and is neither always false nor always true is
turned into its minimal sum. So the answer is equivalent to the formula, no equivalent sum of
products is smaller, and formulas of one meaning get the same paths, whatever attributes they
mention besides.

## Main results

- `Minimizer.minimize_spec` — which answer every formula gets
- `Minimizer.minimize_isMinimum` — a cover is a minimum among all equivalent sums of products
- `Minimizer.paths_eq_of_equivalent` — equivalent formulas get the same paths
-/

namespace RulePaths

namespace Minimizer

/-! ### The answer for a formula that parses -/

theorem size_ofExpr_le {m : Minimizer} {e : Expr}
    (h : e.mentions.dedup.length ≤ m.limit) : (Domain.ofExpr e).size ≤ Domain.width := by
  rw [Domain.size_ofExpr]
  exact Nat.le_trans h (Nat.le_trans m.limit_le (by decide))

section

variable {m : Minimizer} {formula : String} {e : Expr} (he : Expr.parse formula = .ok e)
include he

theorem minimize_of_parse :
    m.minimize formula =
      if m.limit < e.mentions.dedup.length then
        .error (.tooManyAttributes e.mentions.dedup.length m.limit)
      else if (TruthTable.ofExpr e).isUnsatisfiable then .error (.unsatisfiable formula)
      else if (TruthTable.ofExpr e).isTautology then .error (.tautology formula)
      else .ok (cover (TruthTable.ofExpr e)) := by
  have htable : TruthTable.tabulate e m.limit =
      if m.limit < e.mentions.dedup.length then
        .error (.tooManyAttributes e.mentions.dedup.length m.limit)
      else .ok (TruthTable.ofExpr e) := by
    unfold TruthTable.tabulate
    rw [Domain.size_ofExpr]
  unfold minimize
  rw [he]
  simp only [bind, Except.bind, htable]
  by_cases hlimit : m.limit < e.mentions.dedup.length
  · simp only [if_pos hlimit]
  · simp only [if_neg hlimit]
    split
    · rfl
    · split <;> rfl

/-- A cover that a formula gets is its minimal sum. -/
theorem isMinimalSum_of_minimize {c : Cover} (hc : m.minimize formula = .ok c) :
    IsMinimalSum (fun v => e.eval v) c.terms := by
  rw [minimize_of_parse he] at hc
  split at hc
  · cases hc
  · next hlimit =>
    split at hc
    · cases hc
    · split at hc
      · cases hc
      · cases hc
        exact isMinimalSum_cover (size_ofExpr_le (Nat.not_lt.1 hlimit))

variable (hlimit : e.mentions.dedup.length ≤ m.limit)
include hlimit

theorem minimize_eq_unsatisfiable (h : ∀ v, e.eval v = false) :
    m.minimize formula = .error (.unsatisfiable formula) := by
  rw [minimize_of_parse he, if_neg (Nat.not_lt.2 hlimit),
    if_pos (TruthTable.isUnsatisfiable_iff.2 h)]

theorem minimize_eq_tautology (h : ∀ v, e.eval v = true) :
    m.minimize formula = .error (.tautology formula) := by
  have hsat : ¬ (TruthTable.ofExpr e).isUnsatisfiable = true := by
    rw [TruthTable.isUnsatisfiable_iff]
    intro hfalse
    exact Bool.false_ne_true ((hfalse fun _ => false).symm.trans (h _))
  rw [minimize_of_parse he, if_neg (Nat.not_lt.2 hlimit), if_neg hsat,
    if_pos (TruthTable.isTautology_iff.2 h)]

/-- A formula that is neither always false nor always true is turned into its minimal sum. -/
theorem exists_minimize_eq_ok (hsat : ∃ v, e.eval v = true) (hfalse : ∃ v, e.eval v = false) :
    ∃ c, m.minimize formula = .ok c ∧ IsMinimalSum (fun v => e.eval v) c.terms := by
  have hunsat : ¬ (TruthTable.ofExpr e).isUnsatisfiable = true := by
    rw [TruthTable.isUnsatisfiable_iff]
    intro h
    obtain ⟨v, hv⟩ := hsat
    exact Bool.false_ne_true ((h v).symm.trans hv)
  have htaut : ¬ (TruthTable.ofExpr e).isTautology = true := by
    rw [TruthTable.isTautology_iff]
    intro h
    obtain ⟨v, hv⟩ := hfalse
    exact Bool.false_ne_true (hv.symm.trans (h v))
  refine ⟨cover (TruthTable.ofExpr e), ?_, isMinimalSum_cover (size_ofExpr_le hlimit)⟩
  rw [minimize_of_parse he, if_neg (Nat.not_lt.2 hlimit), if_neg hunsat, if_neg htaut]

end

theorem eval_cases (e : Expr) :
    (∀ v, e.eval v = false) ∨ (∀ v, e.eval v = true) ∨
      ((∃ v, e.eval v = true) ∧ ∃ v, e.eval v = false) := by
  by_cases hfalse : ∀ v, e.eval v = false
  · exact .inl hfalse
  · by_cases htrue : ∀ v, e.eval v = true
    · exact .inr (.inl htrue)
    · push Not at hfalse htrue
      simp only [ne_eq, Bool.not_eq_false, Bool.not_eq_true] at hfalse htrue
      exact .inr (.inr ⟨hfalse, htrue⟩)

/-- A formula that does not parse is answered with its parse error, and one of too many
    attributes with their number. Any other one is rejected as unsatisfiable or as a tautology
    exactly if it is one, and else gets a cover that is not empty and that has the value of the
    formula under every assignment. -/
theorem minimize_spec (limit : Nat) (formula : String) :
    match Expr.parse formula with
    | .error err => (ofLimit limit).minimize formula = .error err
    | .ok e =>
      if min limit ceiling < e.mentions.dedup.length then
        (ofLimit limit).minimize formula =
          .error (.tooManyAttributes e.mentions.dedup.length (min limit ceiling))
      else
        ((ofLimit limit).minimize formula = .error (.unsatisfiable formula) ↔
          ∀ v, e.eval v = false) ∧
        ((ofLimit limit).minimize formula = .error (.tautology formula) ↔
          ∀ v, e.eval v = true) ∧
        ((ofLimit limit).minimize formula = .error (.unsatisfiable formula) ∨
          (ofLimit limit).minimize formula = .error (.tautology formula) ∨
          ∃ c, (ofLimit limit).minimize formula = .ok c ∧ c.implicants ≠ [] ∧
            ∀ v, c.eval v = e.eval v) := by
  cases he : Expr.parse formula with
  | error err =>
    simp only [minimize, he]
    rfl
  | ok e =>
    dsimp only
    split
    · next hlimit =>
      rw [minimize_of_parse he]
      exact if_pos hlimit
    · next hlimit =>
      have hle : e.mentions.dedup.length ≤ (ofLimit limit).limit := Nat.not_lt.1 hlimit
      rcases eval_cases e with hfalse | htrue | ⟨hsat, hfalse⟩
      · rw [minimize_eq_unsatisfiable he hle hfalse]
        simp [hfalse]
      · rw [minimize_eq_tautology he hle htrue]
        simp [htrue]
      · obtain ⟨c, hc, hminimal⟩ := exists_minimize_eq_ok he hle hsat hfalse
        have hne : c.implicants ≠ [] := by
          obtain ⟨v, hv⟩ := hsat
          obtain ⟨t, ht, _⟩ := hminimal.exists_eval v hv
          obtain ⟨i, hi, _⟩ := List.mem_map.1 ht
          exact List.ne_nil_of_mem hi
        obtain ⟨v, hv⟩ := hsat
        obtain ⟨w, hw⟩ := hfalse
        rw [hc]
        refine ⟨⟨nofun, fun h => ?_⟩, ⟨nofun, fun h => ?_⟩,
          .inr (.inr ⟨c, rfl, hne, hminimal.any_eval⟩)⟩
        · exact absurd ((h v).symm.trans hv) Bool.false_ne_true
        · exact absurd (hw.symm.trans (h w)) Bool.false_ne_true

/-- The cover of a formula has its value under every assignment. It has no more terms than any sum
    of products that is equivalent to the formula, and no more literals than one with as many
    terms. -/
theorem minimize_isMinimum {m : Minimizer} {formula : String} {e : Expr} {c : Cover}
    (he : Expr.parse formula = .ok e) (hc : m.minimize formula = .ok c) :
    (∀ v, c.eval v = e.eval v) ∧
      ∀ us : List (Finset Literal),
        (∀ v, e.eval v = true ↔ ∃ u ∈ us, ∀ l ∈ u, l.eval v = true) →
        c.terms.length ≤ us.length ∧
          (c.terms.length = us.length →
            (c.terms.map List.length).sum ≤ (us.map Finset.card).sum) := by
  have hminimal := isMinimalSum_of_minimize he hc
  exact ⟨hminimal.any_eval, fun _ hus => hminimal.le_of_equivalent hus⟩

/-- The sum of `0` and `!0&1` has as many terms as the cover of the formula but one more
    literal. -/
theorem minimize_isMinimum_absorption :
    let us : List (Finset Literal) := [{⟨0, false⟩}, {⟨0, true⟩, ⟨1, false⟩}]
    ∃ e c, Expr.parse "0|!0&1" = .ok e ∧ (ofLimit 16).minimize "0|!0&1" = .ok c ∧
      (∀ v, c.eval v = e.eval v) ∧
      (∀ v, e.eval v = true ↔ ∃ u ∈ us, ∀ l ∈ u, l.eval v = true) ∧
      c.terms.length ≤ us.length ∧
      (c.terms.length = us.length →
        (c.terms.map List.length).sum ≤ (us.map Finset.card).sum) := by
  intro us
  have htokens : Token.ofFormula "0|!0&1" =
      .ok [⟨.index 0, 0, "0"⟩, ⟨.or, 1, "|"⟩, ⟨.not, 2, "!"⟩, ⟨.index 0, 3, "0"⟩,
        ⟨.and, 4, "&"⟩, ⟨.index 1, 5, "1"⟩] := by decide +kernel
  have he : Expr.parse "0|!0&1" =
      .ok (.or [.atom 0, .and [.not (.atom 0), .atom 1]]) := by
    rw [Expr.parse, htokens]
    rfl
  have hc : (ofLimit 16).minimize "0|!0&1" =
      .ok (cover (TruthTable.ofExpr (.or [.atom 0, .and [.not (.atom 0), .atom 1]]))) := by
    rw [minimize_of_parse he]
    rfl
  have hus : ∀ v, Expr.eval v (.or [.atom 0, .and [.not (.atom 0), .atom 1]]) = true ↔
      ∃ u ∈ us, ∀ l ∈ u, l.eval v = true := by
    intro v
    simp [us, Expr.eval, Expr.evalAll, Expr.evalAny, Literal.eval]
  obtain ⟨heval, hleast⟩ := minimize_isMinimum he hc
  exact ⟨_, _, he, hc, heval, hus, hleast us hus⟩

/-- Formulas that parse, have few enough attributes and are true under the same assignments get
    the same paths in the same order, or are both unsatisfiable, or both tautologies. -/
theorem paths_eq_of_equivalent {m : Minimizer} {formula formula' : String} {d e : Expr}
    (hd : Expr.parse formula = .ok d) (he : Expr.parse formula' = .ok e)
    (hdlimit : d.mentions.dedup.length ≤ m.limit) (helimit : e.mentions.dedup.length ≤ m.limit)
    (h : ∀ v, d.eval v = e.eval v) :
    (∃ paths, m.paths formula = .ok paths ∧ m.paths formula' = .ok paths) ∨
      (m.paths formula = .error (.unsatisfiable formula) ∧
        m.paths formula' = .error (.unsatisfiable formula')) ∨
      (m.paths formula = .error (.tautology formula) ∧
        m.paths formula' = .error (.tautology formula')) := by
  -- the minimal sum belongs to the function, and both formulas have the same one
  have heq : (fun v => d.eval v) = fun v => e.eval v := funext h
  rcases eval_cases d with hfalse | htrue | ⟨hsat, hfalse⟩
  · right
    left
    unfold paths
    rw [minimize_eq_unsatisfiable hd hdlimit hfalse,
      minimize_eq_unsatisfiable he helimit fun v => h v ▸ hfalse v]
    exact ⟨rfl, rfl⟩
  · right
    right
    unfold paths
    rw [minimize_eq_tautology hd hdlimit htrue,
      minimize_eq_tautology he helimit fun v => h v ▸ htrue v]
    exact ⟨rfl, rfl⟩
  · left
    obtain ⟨c, hc, hminimal⟩ := exists_minimize_eq_ok hd hdlimit hsat hfalse
    simp only [h] at hsat hfalse
    obtain ⟨c', hc', hminimal'⟩ := exists_minimize_eq_ok he helimit hsat hfalse
    rw [heq] at hminimal
    have hterms : c.terms = c'.terms := hminimal.unique hminimal'
    refine ⟨c.paths, ?_, ?_⟩
    · unfold paths
      rw [hc]
      rfl
    · unfold paths Cover.paths
      rw [hc', hterms]
      rfl

/-- A formula that also mentions an attribute on which it does not depend. -/
theorem paths_eq_of_equivalent_absorption :
    ∃ d e, Expr.parse "0|0&1" = .ok d ∧ Expr.parse "0" = .ok e ∧
      d.mentions.dedup.length ≤ 16 ∧ e.mentions.dedup.length ≤ 16 ∧
      (∀ v, d.eval v = e.eval v) ∧
      ((∃ paths, (ofLimit 16).paths "0|0&1" = .ok paths ∧ (ofLimit 16).paths "0" = .ok paths) ∨
        ((ofLimit 16).paths "0|0&1" = .error (.unsatisfiable "0|0&1") ∧
          (ofLimit 16).paths "0" = .error (.unsatisfiable "0")) ∨
        ((ofLimit 16).paths "0|0&1" = .error (.tautology "0|0&1") ∧
          (ofLimit 16).paths "0" = .error (.tautology "0"))) := by
  have htokens : Token.ofFormula "0|0&1" =
      .ok [⟨.index 0, 0, "0"⟩, ⟨.or, 1, "|"⟩, ⟨.index 0, 2, "0"⟩, ⟨.and, 3, "&"⟩,
        ⟨.index 1, 4, "1"⟩] := by decide +kernel
  have htoken : Token.ofFormula "0" = .ok [⟨.index 0, 0, "0"⟩] := by decide +kernel
  have hd : Expr.parse "0|0&1" = .ok (.or [.atom 0, .and [.atom 0, .atom 1]]) := by
    rw [Expr.parse, htokens]
    rfl
  have he : Expr.parse "0" = .ok (.atom 0) := by
    rw [Expr.parse, htoken]
    rfl
  have hdlimit : (Expr.mentions (.or [.atom 0, .and [.atom 0, .atom 1]])).dedup.length ≤ 16 := by
    decide
  have helimit : (Expr.mentions (.atom 0)).dedup.length ≤ 16 := by decide
  have heval : ∀ v, Expr.eval v (.or [.atom 0, .and [.atom 0, .atom 1]]) =
      Expr.eval v (.atom 0) := by
    intro v
    simp only [Expr.eval, Expr.evalAll, Expr.evalAny]
    cases v 0 <;> simp
  exact ⟨_, _, hd, he, hdlimit, helimit, heval,
    paths_eq_of_equivalent hd he hdlimit helimit heval⟩

end Minimizer

end RulePaths
