import RulePaths.Proofs.Cover.Counts
import RulePaths.Proofs.Formula.Minimization
import RulePaths.Proofs.Formula.PrimeMerging
import RulePaths.Proofs.Formula.Scanning
import RulePaths.Proofs.Formula.Shape

/-!
# Numbers of minimization fit words

Attributes, rows, implicants and counts of literals are held in words of 32 bits. No limit lets a
table have more than 24 attributes, so rows and implicants fit, and positions are bits of a word.
There are at most as many clauses as rows and at most as many literals in a term as attributes, and
the product of both fits as well, so that no count of the search overflows.

Places are looked up in lists: implicants fix positions of the domain only, at any time of merging
and in the cover, and the place of a candidate is that of its implicant.

## Main definitions

- `Implicant.FitsDomain` — an implicant fixes positions of a domain, and its literals are found
- `TruthTable.FitsWords` — all that is made of a table fits

## Main results

- `Expr.lt_of_mem_mentions` — attributes of a formula are words
- `TruthTable.WellFormed.fitsWords` — tables of few attributes fit
- `Minimizer.minimize_fitsWords` — so does whatever is minimized
-/

namespace RulePaths

/-! ### Attributes -/

theorem Token.Scanned.index_lt {offset : Nat} {cs : List Char} {ts : List Token}
    (h : Scanned offset cs ts) {a : Nat} (ha : .index a ∈ ts.map Token.symbol) :
    a < indexBound := by
  induction h with
  | nil => cases ha
  | blank _ _ ih => exact ih ha
  | @operator offset c b cs ts _ hop _ ih =>
    rcases List.mem_cons.1 ha with heq | ha
    · obtain rfl : Symbol.index a = b := heq
      rw [operator?.eq_def] at hop
      split at hop <;> cases hop
    · exact ih ha
  | index _ _ _ _ hlt _ ih =>
    rcases List.mem_cons.1 ha with heq | ha
    · cases heq
      exact hlt
    · exact ih ha

/-- The attributes of a formula are words. -/
theorem Expr.lt_of_mem_mentions {formula : String} {e : Expr} (h : Expr.parse formula = .ok e)
    {a : Nat} (ha : a ∈ e.mentions) : a < 2 ^ Domain.width := by
  obtain ⟨tokens, hscan, x, hsymbols, rfl, -⟩ := Expr.parse_eq_ok_iff.1 h
  rw [x.mentions_tree, hsymbols, Symbol.mem_filterMap_index?] at ha
  exact (Token.scan_eq_ok_iff.1 hscan).index_lt ha

/-! ### Implicants -/

namespace Implicant

/-- The fixed positions are covered by the mask of a domain, values are of fixed positions, and the
literals are found by looking up the attribute of every fixed position. -/
structure FitsDomain (d : Domain) (i : Implicant) : Prop where
  care_and_mask : i.care &&& d.fullMask = i.care
  value_and_care : i.value &&& i.care = i.value
  lookup : (i.positions.mapM fun l => d.attributes[l.index]?.map fun a => Literal.mk a l.negated) =
    some (i.literals d)

theorem mapM_eq_some_map {α β : Type} {f : α → Option β} {g : α → β} {l : List α}
    (h : ∀ x ∈ l, f x = some (g x)) : l.mapM f = some (l.map g) := by
  induction l with
  | nil => rfl
  | cons x l ih =>
    obtain ⟨hx, hl⟩ := List.forall_mem_cons.1 h
    rw [List.mapM_cons, hx, ih hl]
    rfl

theorem Within.fitsDomain {d : Domain} {i : Implicant} (h : i.Within d.size)
    (hd : d.size ≤ Domain.width) : i.FitsDomain d where
  care_and_mask := and_fullMask hd h.care_lt
  value_and_care := h.value_and_care
  lookup := by
    rw [literals_eq h hd]
    refine mapM_eq_some_map fun l hl => ?_
    have hindex : l.index < d.attributes.length := h.lt_of_care ((mem_positions h hd).1 hl).1
    rw [List.getElem?_eq_getElem hindex, relabel, Domain.attributeAt_eq_getElem hindex]
    rfl

end Implicant

namespace Merging

open Implicant

/-- The set that a round makes of a set which is gone through in some order. -/
def nextSet (visit : Traversal) (s : List Implicant) : List Implicant :=
  (round s (visit.order s)).next

theorem within_partner {n : Nat} {i : Implicant} (h : i.Within n) (p : Nat) :
    (partner p i).Within n where
  care_lt := h.care_lt
  value_and_care := by
    apply Nat.eq_of_testBit_eq
    intro q
    have hvalue : (partner p i).value.testBit q = (i.value.testBit q && decide (q ≠ p)) :=
      testBit_ldiff_shift i.value p q
    rw [Nat.testBit_and, hvalue]
    cases hq : i.value.testBit q with
    | false => simp
    | true => simp [partner, h.care_of_value hq]

/-- Rounds make implicants within the positions of the set that they start from. -/
theorem within_nextSet {n : Nat} {s : List Implicant} (h : ∀ i ∈ s, i.Within n)
    (visit : Traversal) : ∀ i ∈ nextSet visit s, i.Within n := by
  intro j hj
  obtain ⟨i, p, hmerges, rfl⟩ := mem_next_round_iff.1 hj
  exact (h i ((visit.perm s).subset hmerges.visited)).drop p

theorem within_iterate_nextSet {n : Nat} {s : List Implicant} (h : ∀ i ∈ s, i.Within n)
    (visit : Traversal) (turns : Nat) : ∀ i ∈ (nextSet visit)^[turns] s, i.Within n := by
  induction turns with
  | zero => exact h
  | succ turns ih =>
    rw [Function.iterate_succ_apply']
    exact within_nextSet ih visit

end Merging

/-! ### Tables -/

namespace TruthTable

open Implicant Merging MinimalCover

/-- All that is made of a table fits: attributes and rows are words, shifts are by less than the
width of a word, all implicants that are handled fit the domain, places of candidates are those of
implicants, and the counts of the search are words. -/
structure FitsWords (t : TruthTable) : Prop where
  attribute_lt : ∀ a ∈ t.domain.attributes, a < 2 ^ Domain.width
  size_lt : t.domain.size < Domain.width
  position_lt : ∀ a p, t.domain.position? a = some p → p < Domain.width
  row_lt : ∀ row < t.rowCount, row < 2 ^ Domain.width
  merging : ∀ visit turns, ∀ i ∈ (nextSet visit)^[turns] t.singleRows,
    i.FitsDomain t.domain ∧ ∀ p, (partner p i).FitsDomain t.domain
  primes : ∀ i ∈ t.primes, i.FitsDomain t.domain
  cover : ∀ i ∈ minimalCover t.primes t.minterms, i.FitsDomain t.domain
  place : ∀ c ∈ candidates t.primes, t.primes[c.index]? = some c.implicant
  search : let all := candidates t.primes
    let clauses := t.minterms.map (clauseOf all)
    CoverSearch.FitsWords all (remaining (essential all clauses) clauses)

namespace WellFormed

variable {t : TruthTable} (h : t.WellFormed)
include h

theorem length_minterms_le : t.minterms.length ≤ t.rowCount := by
  have hnodup : t.minterms.Nodup := h.ascending.imp Nat.ne_of_lt
  have hsub := hnodup.subperm fun row hrow => List.mem_range.2 (h.lt_rowCount row hrow)
  simpa using hsub.length_le

theorem within_of_mem_primes {i : Implicant} (hi : i ∈ t.primes) : i.Within t.domain.size :=
  (h.mem_primes.1 hi).toWithin

/-- The terms of candidates have at most as many literals as there are attributes. -/
theorem length_term_le {c : Candidate} (hc : c ∈ candidates t.primes) :
    c.term.length ≤ t.domain.size := by
  rw [c.term_eq, ← literalCount_eq]
  exact literalCount_le
    (h.within_of_mem_primes (List.mem_of_getElem? (getElem?_of_mem_candidates hc)))

/-- There are at most as many clauses as rows. -/
theorem fitsWords_search (hsize : t.domain.size ≤ Minimizer.ceiling) :
    let all := candidates t.primes
    let clauses := t.minterms.map (clauseOf all)
    CoverSearch.FitsWords all (remaining (essential all clauses) clauses) := by
  intro all clauses
  have hproblem : CoverSearch.IsProblem all clauses :=
    isProblem_clauses (nodup_candidates t.primes) t.minterms
  refine CoverSearch.fitsWords_of_bounded (isProblem_remaining hproblem)
    (fun c hc => h.length_term_le hc) ?_
  calc (remaining (essential all clauses) clauses).length * t.domain.size
      ≤ t.rowCount * t.domain.size := by
        refine Nat.mul_le_mul_right _ ((length_remaining_le _ _).trans ?_)
        rw [List.length_map]
        exact h.length_minterms_le
    _ = 2 ^ t.domain.size * t.domain.size := by rw [rowCount, Nat.one_shiftLeft]
    _ ≤ 2 ^ Minimizer.ceiling * Minimizer.ceiling :=
        Nat.mul_le_mul (Nat.pow_le_pow_right (by decide) hsize) hsize
    _ < 2 ^ Domain.width := by decide

/-- Tables of words as attributes fit, unless they have too many. -/
theorem fitsWords (hattributes : ∀ a ∈ t.domain.attributes, a < 2 ^ Domain.width)
    (hsize : t.domain.size ≤ Minimizer.ceiling) : t.FitsWords := by
  have hlt : t.domain.size < Domain.width := Nat.lt_of_le_of_lt hsize (by decide)
  have hprimes : ∀ i ∈ t.primes, i.FitsDomain t.domain :=
    fun i hi => (h.within_of_mem_primes hi).fitsDomain hlt.le
  have hsingle : ∀ i ∈ t.singleRows, i.Within t.domain.size :=
    fun i hi => (((hasAll_singleRows h hlt.le).mem_iff i).1 hi).1.toWithin
  exact {
    attribute_lt := hattributes
    size_lt := hlt
    position_lt := fun a p hp => by
      obtain ⟨hp, -⟩ := List.idxOf?_eq_some_iff.1 hp
      exact Nat.lt_trans hp hlt
    row_lt := fun row hrow => by
      rw [rowCount, Nat.one_shiftLeft] at hrow
      exact hrow.trans (Nat.pow_lt_pow_right (by decide) hlt)
    merging := fun visit turns i hi => by
      have hwithin := within_iterate_nextSet hsingle visit turns i hi
      exact ⟨hwithin.fitsDomain hlt.le, fun p => (within_partner hwithin p).fitsDomain hlt.le⟩
    primes := hprimes
    cover := fun i hi => hprimes i ((minimalCover_subperm t.primes t.minterms).subset hi)
    place := fun c => getElem?_of_mem_candidates
    search := h.fitsWords_search hsize }

end WellFormed

end TruthTable

namespace Minimizer

/-- Whatever the formula and the limit, the formula is refused before a table is made, or all that
is made of its table fits, and the answer is about this table. -/
theorem minimize_fitsWords (limit : Nat) (formula : String) :
    match Expr.parse formula with
    | .error err => (ofLimit limit).minimize formula = .error err
    | .ok e =>
      match TruthTable.tabulate e (ofLimit limit).limit with
      | .error err => (ofLimit limit).minimize formula = .error err
      | .ok t => t.FitsWords ∧ ∀ c, (ofLimit limit).minimize formula = .ok c → c = cover t := by
  cases he : Expr.parse formula with
  | error err =>
    simp only [minimize, he]
    rfl
  | ok e =>
    dsimp only
    cases ht : TruthTable.tabulate e (ofLimit limit).limit with
    | error err =>
      simp only [minimize, he, bind, Except.bind, ht]
    | ok t =>
      obtain ⟨hsize, rfl⟩ := TruthTable.tabulate_eq_ok_iff.1 ht
      refine ⟨?_, fun c hc => ?_⟩
      · exact (TruthTable.wellFormed_ofExpr e).fitsWords
          (fun a ha => Expr.lt_of_mem_mentions he (Domain.mem_ofExpr.1 ha))
          (hsize.trans (ofLimit limit).limit_le)
      · rw [minimize_of_parse he] at hc
        split at hc
        · cases hc
        · split at hc
          · cases hc
          · split at hc
            · cases hc
            · exact (Except.ok.inj hc).symm

end Minimizer

end RulePaths
