import RulePaths.Formula.Domain
import RulePaths.Formula.Term

/-!
# Implicants

An implicant is a term over the positions of a domain, held in two numbers: the bits of
`care` are the positions that the term fixes, and those of `value` the fixed positions that
have to hold. No bit of `value` lies outside `care`.

Implicants are ordered like their sequences of literals.
-/

namespace RulePaths

/-- A term over positions: `care` has the fixed positions, `value` those that have to hold. -/
structure Implicant where
  value : Nat
  care : Nat
deriving DecidableEq, Inhabited

namespace Implicant

/-- The implicant that covers one row only. -/
def ofMinterm (row : Nat) (d : Domain) : Implicant :=
  ⟨row &&& d.fullMask, d.fullMask⟩

/-- Whether a row agrees with an implicant on all fixed positions. -/
def covers (i : Implicant) (row : Nat) : Bool :=
  row &&& i.care == i.value

/-- The number of fixed positions. -/
def literalCount (i : Implicant) : Nat :=
  (List.range Domain.width).countP i.care.testBit

/-- The literals of an implicant over positions instead of attributes, ascending. -/
def positions (i : Implicant) : Term :=
  ((List.range Domain.width).filter i.care.testBit).map fun p => ⟨p, !i.value.testBit p⟩

/-- The literals of an implicant over a domain, ascending. -/
def literals (i : Implicant) (d : Domain) : Term :=
  (d.attributes.zipIdx.filter fun (_, p) => i.care.testBit p).map
    fun (a, p) => ⟨a, !i.value.testBit p⟩

/-- The text of an implicant over a domain. -/
def render (i : Implicant) (d : Domain) : String :=
  (i.literals d).render

/-- The lexicographic order of the literals; a term comes before its extensions. -/
instance : Ord Implicant where
  compare i j := compare i.positions j.positions

/-- Implicants in ascending order, repeats kept. -/
def sort (is : List Implicant) : List Implicant :=
  is.mergeSort fun i j => (compare i j).isLE

end Implicant

end RulePaths
