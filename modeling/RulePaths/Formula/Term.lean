import RulePaths.Formula.Expr

/-!
# Product terms and their text

A term is a conjunction of literals, a path of the rule graph. Its text is the literals one
after the other, each attribute by its number. `!` stands before a negated attribute and `&`
before any other one, except that nothing stands before the first attribute of a term unless
it is negated: `0&1!2` says that 0 and 1 hold and 2 does not.
-/

namespace RulePaths

/-- The attribute `index`, which has to hold or, when negated, must not hold. -/
structure Literal where
  index : Nat
  negated : Bool
deriving DecidableEq, Inhabited

namespace Literal

/-- Literals are ordered by attribute, the positive one before the negated one. -/
instance : Ord Literal where
  compare a b := (compare a.index b.index).then (compare a.negated b.negated)

/-- Whether a literal is true under an assignment. -/
def eval (value : Assignment) (l : Literal) : Bool :=
  value l.index != l.negated

/-- The text of a literal that follows another one. -/
def text (l : Literal) : String :=
  (if l.negated then "!" else "&") ++ l.index.repr

/-- The text of a literal that comes first. -/
def leadText (l : Literal) : String :=
  (if l.negated then "!" else "") ++ l.index.repr

end Literal

/-- A conjunction of literals. -/
abbrev Term := List Literal

namespace Term

/-- Whether all literals of a term are true under an assignment. -/
def eval (value : Assignment) (t : Term) : Bool :=
  t.all (Literal.eval value)

/-- The text of a term; the empty term has the empty text. -/
def render : Term → String
  | [] => ""
  | l :: ls => ls.foldl (fun text l => text ++ l.text) l.leadText

end Term

end RulePaths
