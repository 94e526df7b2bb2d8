import RulePaths.Formula.Expr
import RulePaths.Formula.Token

/-!
# From tokens to expressions

The grammar of formulas, over tokens:

    expression := conjunction ( '|' conjunction )*
    conjunction := operand ( '&' operand )*
    operand := '!' operand | index | '(' expression ')'

A chain of one operand is that operand and a longer one is a single node; parentheses leave
no node. At most `maxDepth` negations and groups may be open at once.

The parser reads the tokens from left to right, one step for each. Between two tokens its
`State` holds the levels that are open: the formula itself and every group around the current
place, each with the operands it has collected so far. A step that meets a token which no
formula has at this place reports that token, so an error always points at the first place
where the formula goes wrong.
-/

namespace RulePaths

namespace Parser

/-- The greatest number of negations and groups that may be open at once. -/
def maxDepth : Nat := 256

/-- The node for a chain of operands: nothing is added around a single one. -/
def chainOf (node : List Expr → Expr) : List Expr → Expr
  | [e] => e
  | es => node es

/-- A level while it is read: the finished operands of its disjunction and those of the
conjunction that is being read, the latest first. -/
structure Chain where
  disjuncts : List Expr
  conjuncts : List Expr
deriving Inhabited

namespace Chain

/-- A level of which nothing has been read. -/
def empty : Chain := ⟨[], []⟩

/-- The level with one more operand of its current conjunction. -/
def push (c : Chain) (e : Expr) : Chain :=
  { c with conjuncts := e :: c.conjuncts }

/-- The level with its current conjunction finished. -/
def endConjunction (c : Chain) : Chain :=
  ⟨chainOf .and c.conjuncts.reverse :: c.disjuncts, []⟩

/-- The expression that a finished level stands for. -/
def close (c : Chain) : Expr :=
  chainOf .or c.endConjunction.disjuncts.reverse

end Chain

/-- A level that waits for an operand, with the number of negations already read for it. -/
structure Level where
  chain : Chain
  negations : Nat
deriving Inhabited

/-- A number of negations around an expression. -/
def negate : Nat → Expr → Expr
  | 0, e => e
  | n + 1, e => .not (negate n e)

/-- What is open between two tokens. The levels around the current group come innermost
first; each waits for the group as its operand. -/
inductive State where
  /-- An operand has to follow. -/
  | operand (outer : List Level) (level : Level)
  /-- An operand has just ended. -/
  | operator (outer : List Level) (chain : Chain)
deriving Inhabited

namespace State

/-- Nothing has been read. -/
def start : State := .operand [] ⟨.empty, 0⟩

/-- The negations and groups opened by the levels around a group. -/
def depthOf (outer : List Level) : Nat :=
  outer.foldr (fun l depth => l.negations + 1 + depth) 0

/-- The state after an operand of a level has ended. -/
def complete (outer : List Level) (level : Level) (e : Expr) : State :=
  .operator outer (level.chain.push (negate level.negations e))

/-- What may follow an operand inside the given levels. -/
def expectedAfter : List Level → Expected
  | [] => .continuation
  | _ :: _ => .closing

/-- One token read, where at most `limit` negations and groups may be open at once. -/
def step (limit : Nat) (s : State) (t : Token) : Except FormulaError State :=
  match s with
  | .operand outer level =>
    match t.symbol with
    | .index a => .ok (complete outer level (.atom a))
    | .not =>
      if depthOf outer + level.negations = limit then .error (.tooDeep limit t.span)
      else .ok (.operand outer { level with negations := level.negations + 1 })
    | .opening =>
      if depthOf outer + level.negations = limit then .error (.tooDeep limit t.span)
      else .ok (.operand (level :: outer) ⟨.empty, 0⟩)
    | _ => .error (.unexpectedToken .operand t.text t.offset)
  | .operator outer chain =>
    match t.symbol, outer with
    | .and, _ => .ok (.operand outer ⟨chain, 0⟩)
    | .or, _ => .ok (.operand outer ⟨chain.endConjunction, 0⟩)
    | .closing, level :: around => .ok (complete around level chain.close)
    | _, _ => .error (.unexpectedToken (expectedAfter outer) t.text t.offset)

/-- The expression read, where the formula ends at byte `stop`. -/
def finish (stop : Nat) : State → Except FormulaError Expr
  | .operand _ _ => .error (.unexpectedEnd .operand stop)
  | .operator [] chain => .ok chain.close
  | .operator (_ :: _) _ => .error (.unexpectedEnd .closing stop)

end State

/-- The expression that a sequence of tokens stands for, where the formula ends at byte
`stop`. -/
def ofTokens (limit stop : Nat) (tokens : List Token) : Except FormulaError Expr := do
  let s ← tokens.foldlM (State.step limit) .start
  s.finish stop

end Parser

/-- The expression that a formula stands for. Every error of the scan wins over every error
of the parse. -/
def Expr.parse (formula : String) : Except FormulaError Expr := do
  match ← Token.ofFormula formula with
  | [] => .error .empty
  | tokens => Parser.ofTokens Parser.maxDepth formula.utf8ByteSize tokens

end RulePaths
