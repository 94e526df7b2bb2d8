import RulePaths.Formula.CoverSearch

/-!
# Minimal covers

The cheapest way to cover a list of rows by implicants from a list. A row that only one
implicant covers makes this implicant essential. Essential implicants are taken first; the
rows that they leave are the problem of the search.
-/

namespace RulePaths

namespace MinimalCover

/-- The implicants of a list, each with its place. -/
def candidates (implicants : List Implicant) : Selection :=
  implicants.zipIdx.map fun (implicant, index) => { index, implicant }

/-- The clause of a row: the candidates that cover it. -/
def clauseOf (all : Selection) (row : Nat) : Clause :=
  all.filter fun c => c.implicant.covers row

/-- The candidates that are alone in some clause, ascending by place. -/
def essential (all : Selection) (clauses : List Clause) : Selection :=
  all.filter fun c => clauses.contains [c]

/-- The clauses without any candidate of a selection, each once, in the lexicographic order
of places. -/
def remaining (chosen : Selection) (clauses : List Clause) : List Clause :=
  let open_ := clauses.filter fun clause => !clause.any chosen.contains
  (open_.mergeSort fun c d =>
    (compare (c.map Candidate.index) (d.map Candidate.index)).isLE).eraseReps

end MinimalCover

open MinimalCover in
/-- The cheapest implicants of a list that cover all rows of a list, ascending. If some row
is covered by none of them, the others are covered greedily. -/
def minimalCover (implicants : List Implicant) (rows : List Nat) : List Implicant :=
  let all := candidates implicants
  let clauses := rows.map (clauseOf all)
  let chosen := essential all clauses
  let rest := remaining chosen clauses
  Implicant.sort ((chosen ++ CoverSearch.solve all rest).map Candidate.implicant)

end RulePaths
