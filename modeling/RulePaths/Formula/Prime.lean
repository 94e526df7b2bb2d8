import RulePaths.Formula.Implicant
import RulePaths.Formula.TruthTable

/-!
# Prime implicants

A prime implicant of a set of rows covers rows of the set only, and ceases to do so when any
of its fixed positions is given up.

They are found by expansion on the highest position. Split the set into the rows where the
position is clear and those where it is set, both without this position. A prime implicant
that leaves the position free is one of the rows common to both halves. One that fixes it is
a prime implicant of its half which is none of the common rows, for otherwise the position
could be given up. If a half has no rows but the common ones, there is none of these.
-/

namespace RulePaths

namespace Prime

/-- The numbers common to two ascending lists. -/
def common : List Nat → List Nat → List Nat
  | [], _ => []
  | a :: as, bs =>
    match bs.dropWhile (· < a) with
    | [] => []
    | b :: bs => if a = b then a :: common as bs else common as (b :: bs)

/-- An implicant with one more position fixed. -/
def fixPosition (p : Nat) (holds : Bool) (i : Implicant) : Implicant :=
  ⟨if holds then i.value + 1 <<< p else i.value, i.care + 1 <<< p⟩

/-- The prime implicants of an ascending list of rows over `n` positions. -/
def ofRows : Nat → List Nat → List Implicant
  | _, [] => []
  | 0, _ :: _ => [⟨0, 0⟩]
  | n + 1, rows =>
    let clear := rows.filter fun row => !row.testBit n
    let set := (rows.filter fun row => row.testBit n).map (· - 1 <<< n)
    let shared := common clear set
    let free := ofRows n shared
    let fixed (holds : Bool) (half : List Nat) : List Implicant :=
      if half = shared then []
      else ((ofRows n half).filter fun i => !free.contains i).map (fixPosition n holds)
    free ++ fixed false clear ++ fixed true set

end Prime

/-- The prime implicants of a truth table, in ascending order. -/
def TruthTable.primes (t : TruthTable) : List Implicant :=
  Implicant.sort (Prime.ofRows t.domain.size t.minterms)

end RulePaths
