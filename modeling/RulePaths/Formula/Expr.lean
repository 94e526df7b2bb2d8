/-!
# Boolean expressions over numbered attributes

Attributes are named by numbers; those read from a formula are below `2 ^ 32`. An
expression is built from attributes by negation and by conjunctions and disjunctions of
any number of operands. `Expr.eval` gives its truth value under an assignment of the
attributes, and `Expr.mentions` the attributes it speaks of.
-/

namespace RulePaths

/-- An assignment tells of every attribute whether it holds. -/
abbrev Assignment := Nat → Bool

/-- A boolean expression. A chain of one operator is one node with all operands of the chain. -/
inductive Expr where
  /-- An attribute holds. -/
  | atom (a : Nat)
  /-- The operand does not hold. -/
  | not (e : Expr)
  /-- Every operand holds. -/
  | and (es : List Expr)
  /-- Some operand holds. -/
  | or (es : List Expr)
deriving Inhabited

namespace Expr

mutual

/-- The truth value of an expression under an assignment. -/
def eval (value : Assignment) : Expr → Bool
  | .atom a => value a
  | .not e => !e.eval value
  | .and es => evalAll value es
  | .or es => evalAny value es

/-- Whether every expression of a list holds. -/
def evalAll (value : Assignment) : List Expr → Bool
  | [] => true
  | e :: es => e.eval value && evalAll value es

/-- Whether some expression of a list holds. -/
def evalAny (value : Assignment) : List Expr → Bool
  | [] => false
  | e :: es => e.eval value || evalAny value es

end

mutual

/-- The attributes at the leaves of an expression, from left to right, with repeats. -/
def mentions : Expr → List Nat
  | .atom a => [a]
  | .not e => e.mentions
  | .and es => mentionsAll es
  | .or es => mentionsAll es

/-- The attributes at the leaves of a list of expressions, from left to right. -/
def mentionsAll : List Expr → List Nat
  | [] => []
  | e :: es => e.mentions ++ mentionsAll es

end

mutual

/-- The number of edges on the longest way from the root to a leaf. -/
def height : Expr → Nat
  | .atom _ => 0
  | .not e => e.height + 1
  | .and es => heightAll es + 1
  | .or es => heightAll es + 1

/-- The greatest height in a list of expressions, zero for the empty list. -/
def heightAll : List Expr → Nat
  | [] => 0
  | e :: es => max e.height (heightAll es)

end

theorem evalAll_eq (value : Assignment) (es : List Expr) :
    evalAll value es = es.all (eval value) := by
  induction es with
  | nil => rfl
  | cons e es ih => rw [evalAll, List.all_cons, ih]

theorem evalAny_eq (value : Assignment) (es : List Expr) :
    evalAny value es = es.any (eval value) := by
  induction es with
  | nil => rfl
  | cons e es ih => rw [evalAny, List.any_cons, ih]

theorem mentionsAll_eq (es : List Expr) : mentionsAll es = es.flatMap mentions := by
  induction es with
  | nil => rfl
  | cons e es ih => rw [mentionsAll, List.flatMap_cons, ih]

end Expr

end RulePaths
