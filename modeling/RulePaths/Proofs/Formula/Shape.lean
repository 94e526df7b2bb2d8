import RulePaths.Formula.Domain
import RulePaths.Proofs.Formula.Grammar
import Mathlib.Data.List.Sort

/-!
# The shape of parsed expressions

A chain of one operand leaves no node and neither do parentheses, so an expression that was parsed
has no conjunction or disjunction of fewer than two operands. Its attributes are the indices among
the tokens. And it is not high, however long the formula: only negations and groups lead further
down, and between two of them there are at most two more nodes, a disjunction and a conjunction. So
going through a parsed expression takes a bounded number of calls inside one another.

## Main definitions

- `Expr.operands`, `Expr.NodeOf` — the operands of an expression and all its nodes
- `Expr.Branching` — conjunctions and disjunctions have at least two operands
- `Expr.evalWithin`, `Expr.collectWithin` — going through an expression with a bound on the number
  of calls inside one another

## Main results

- `Grammar.Disjunction.mentions_tree` — the attributes are the indices, in their order
- `Grammar.Disjunction.height_tree_le` — the height is bounded by the room for open negations and
  groups
- `Expr.evalWithin_eq`, `Expr.collectWithin_eq` — one call more than the height is enough
- `Expr.parse_shape` — all this for the expressions that formulas are parsed to
-/

namespace RulePaths

/-- The attribute index that a symbol is. -/
def Symbol.index? : Symbol → Option Nat
  | .index a => some a
  | _ => none

theorem Symbol.mem_filterMap_index? {ss : List Symbol} {a : Nat} :
    a ∈ ss.filterMap index? ↔ .index a ∈ ss := by
  have hindex : ∀ s : Symbol, s.index? = some a ↔ s = .index a := by
    intro s
    cases s <;> simp [index?]
  simp only [List.mem_filterMap, hindex, exists_eq_right]

namespace Domain

/-- The domain with the attributes of a list, one after the other. -/
def insertAll (d : Domain) (as : List Nat) : Domain :=
  as.foldl (fun d a => d.insert a) d

theorem mem_insertAll {d : Domain} {as : List Nat} {a : Nat} :
    a ∈ (d.insertAll as).attributes ↔ a ∈ as ∨ a ∈ d.attributes := by
  induction as generalizing d with
  | nil => simp [insertAll]
  | cons b as ih =>
    have hstep : d.insertAll (b :: as) = (d.insert b).insertAll as := rfl
    rw [hstep, ih, insert, mem_insertAscending, List.mem_cons, or_left_comm, or_assoc]

theorem insertAll_append (d : Domain) (as bs : List Nat) :
    d.insertAll (as ++ bs) = (d.insertAll as).insertAll bs :=
  List.foldl_append

/-- The order in which attributes come in does not matter. -/
theorem insertAll_empty (as : List Nat) : empty.insertAll as = ofList as := by
  have hattributes : (empty.insertAll as).attributes = (ofList as).attributes := by
    refine (ascending _).eq_of_mem_iff (ascending _) fun a => ?_
    rw [mem_insertAll, mem_ofList, empty]
    simp
  rw [mk.injEq]
  exact hattributes

end Domain

namespace Expr

/-! ### Nodes -/

/-- The operands of an expression. -/
def operands : Expr → List Expr
  | .atom _ => []
  | .not e => [e]
  | .and es => es
  | .or es => es

/-- A node of an expression, which may be the expression itself. -/
inductive NodeOf (f : Expr) : Expr → Prop where
  | self : NodeOf f f
  | operand {d e : Expr} : d ∈ e.operands → NodeOf f d → NodeOf f e

/-- Every conjunction and every disjunction in an expression has at least two operands. -/
def Branching (e : Expr) : Prop :=
  ∀ es, NodeOf (.and es) e ∨ NodeOf (.or es) e → 2 ≤ es.length

theorem branching_of_operands {e : Expr}
    (hchain : ∀ es, e = .and es ∨ e = .or es → 2 ≤ e.operands.length)
    (h : ∀ d ∈ e.operands, d.Branching) : e.Branching := by
  rintro es (hnode | hnode)
  · cases hnode with
    | self => exact hchain es (Or.inl rfl)
    | operand hd hnode => exact h _ hd es (Or.inl hnode)
  · cases hnode with
    | self => exact hchain es (Or.inr rfl)
    | operand hd hnode => exact h _ hd es (Or.inr hnode)

theorem branching_atom (a : Nat) : (atom a).Branching :=
  branching_of_operands nofun nofun

theorem Branching.not {e : Expr} (h : e.Branching) : (Expr.not e).Branching :=
  branching_of_operands nofun (List.forall_mem_singleton.2 h)

theorem heightAll_le_iff {n : Nat} {es : List Expr} :
    heightAll es ≤ n ↔ ∀ e ∈ es, e.height ≤ n := by
  induction es with
  | nil => simp [heightAll]
  | cons e es ih => rw [heightAll, Nat.max_le, ih, List.forall_mem_cons]

theorem height_lt_of_mem {n : Nat} {es : List Expr} (h : heightAll es + 1 < n + 1) :
    ∀ e ∈ es, e.height < n := fun e he =>
  Nat.lt_of_le_of_lt (heightAll_le_iff.1 (Nat.le_refl _) e he) (Nat.lt_of_succ_lt_succ h)

/-! ### Nested calls -/

/-- The value of an expression, where at most `n` calls may be open at once: `none` if this is not
enough. The operands of a chain are called one after the other until one decides. -/
def evalWithin (value : Assignment) : (n : Nat) → Expr → Option Bool
  | 0, _ => none
  | _ + 1, .atom a => some (value a)
  | n + 1, .not e => (evalWithin value n e).map (!·)
  | n + 1, .and es => es.allM (evalWithin value n)
  | n + 1, .or es => es.anyM (evalWithin value n)

/-- The domain with the attributes of an expression, where at most `n` calls may be open at once:
`none` if this is not enough. The operands of a chain are called one after the other. -/
def collectWithin : (n : Nat) → Expr → Domain → Option Domain
  | 0, _, _ => none
  | _ + 1, .atom a, d => some (d.insert a)
  | n + 1, .not e, d => collectWithin n e d
  | n + 1, .and es, d => es.foldlM (fun d e => collectWithin n e d) d
  | n + 1, .or es, d => es.foldlM (fun d e => collectWithin n e d) d

section Calls

variable {n : Nat} {e : Expr} {es : List Expr}

theorem allM_eq_some {f : Expr → Option Bool} {g : Expr → Bool}
    (h : ∀ e ∈ es, f e = some (g e)) : es.allM f = some (es.all g) := by
  induction es with
  | nil => rfl
  | cons e es ih =>
    obtain ⟨he, hes⟩ := List.forall_mem_cons.1 h
    rw [List.allM_cons, he, List.all_cons]
    cases g e with
    | true => exact ih hes
    | false => rfl

theorem anyM_eq_some {f : Expr → Option Bool} {g : Expr → Bool}
    (h : ∀ e ∈ es, f e = some (g e)) : es.anyM f = some (es.any g) := by
  induction es with
  | nil => rfl
  | cons e es ih =>
    obtain ⟨he, hes⟩ := List.forall_mem_cons.1 h
    rw [List.anyM_cons, he, List.any_cons]
    cases g e with
    | true => rfl
    | false => exact ih hes

theorem foldlM_collectWithin
    (h : ∀ e ∈ es, ∀ d, e.collectWithin n d = some (d.insertAll e.mentions)) (d : Domain) :
    es.foldlM (fun d e => collectWithin n e d) d = some (d.insertAll (mentionsAll es)) := by
  induction es generalizing d with
  | nil => rfl
  | cons e es ih =>
    obtain ⟨he, hes⟩ := List.forall_mem_cons.1 h
    rw [List.foldlM_cons, he, mentionsAll, Domain.insertAll_append]
    exact ih hes _

/-- One call more than the height is enough for the value. -/
theorem evalWithin_eq (value : Assignment) (h : e.height < n) :
    e.evalWithin value n = some (e.eval value) := by
  induction n generalizing e with
  | zero => exact absurd h (Nat.not_lt_zero _)
  | succ n ih =>
    cases e with
    | atom a => rfl
    | not e => rw [evalWithin, ih (Nat.lt_of_succ_lt_succ h), eval, Option.map_some]
    | and es =>
      rw [evalWithin, eval, evalAll_eq]
      exact allM_eq_some fun e he => ih (height_lt_of_mem h e he)
    | or es =>
      rw [evalWithin, eval, evalAny_eq]
      exact anyM_eq_some fun e he => ih (height_lt_of_mem h e he)

/-- One call more than the height is enough for the attributes. -/
theorem collectWithin_eq (h : e.height < n) (d : Domain) :
    e.collectWithin n d = some (d.insertAll e.mentions) := by
  induction n generalizing e d with
  | zero => exact absurd h (Nat.not_lt_zero _)
  | succ n ih =>
    cases e with
    | atom a => rfl
    | not e => exact ih (Nat.lt_of_succ_lt_succ h) d
    | and es => exact foldlM_collectWithin (fun e he => ih (height_lt_of_mem h e he)) d
    | or es => exact foldlM_collectWithin (fun e he => ih (height_lt_of_mem h e he)) d

end Calls

end Expr

/-! ### Expressions of derivations -/

namespace Grammar

open RulePaths.Parser

section Chains

variable {node : List Expr → Expr} {es : List Expr}

theorem mentions_chainOf (hnode : (node es).mentions = Expr.mentionsAll es) :
    (chainOf node es).mentions = es.flatMap Expr.mentions := by
  rw [chainOf.eq_def]
  split
  · rw [List.flatMap_singleton]
  · rw [hnode, Expr.mentionsAll_eq]

theorem branching_chainOf (hnode : (node es).operands = es) (hne : es ≠ [])
    (h : ∀ e ∈ es, e.Branching) : (chainOf node es).Branching := by
  match es with
  | [] => exact absurd rfl hne
  | [e] => exact h e List.mem_cons_self
  | e :: e' :: es =>
    show (node (e :: e' :: es)).Branching
    refine Expr.branching_of_operands (fun _ _ => ?_) (hnode.symm ▸ h)
    rw [hnode]
    exact Nat.le_add_left 2 es.length

theorem height_chainOf_le {n : Nat} (hnode : (node es).height = Expr.heightAll es + 1)
    (h : ∀ e ∈ es, e.height ≤ n) : (chainOf node es).height ≤ n + 1 := by
  rw [chainOf.eq_def]
  split
  · exact Nat.le_succ_of_le (h _ List.mem_cons_self)
  · rw [hnode]
    exact Nat.succ_le_succ (Expr.heightAll_le_iff.2 h)

end Chains

mutual

/-- The attributes of an operand are the indices among its symbols. -/
theorem Operand.mentions_tree : (x : Operand) →
    x.tree.mentions = x.symbols.filterMap Symbol.index?
  | .index a => rfl
  | .not x => x.mentions_tree
  | .group x => by
    rw [Operand.tree, mentions_chainOf rfl, x.mentions_operands, Operand.symbols,
      List.filterMap_cons_none rfl, List.filterMap_append]
    exact (List.append_nil _).symm

theorem Conjunction.mentions_operands : (x : Conjunction) →
    x.operands.flatMap Expr.mentions = x.symbols.filterMap Symbol.index?
  | .single x => by
    rw [Conjunction.operands, List.flatMap_singleton, x.mentions_tree, Conjunction.symbols]
  | .and x y => by
    rw [Conjunction.operands, List.flatMap_append, List.flatMap_singleton, x.mentions_operands,
      y.mentions_tree, Conjunction.symbols, List.filterMap_append, List.filterMap_cons_none rfl]

theorem Disjunction.mentions_operands : (x : Disjunction) →
    x.operands.flatMap Expr.mentions = x.symbols.filterMap Symbol.index?
  | .single x => by
    rw [Disjunction.operands, List.flatMap_singleton, mentions_chainOf rfl, x.mentions_operands,
      Disjunction.symbols]
  | .or x y => by
    rw [Disjunction.operands, List.flatMap_append, List.flatMap_singleton, mentions_chainOf rfl,
      x.mentions_operands, y.mentions_operands, Disjunction.symbols, List.filterMap_append,
      List.filterMap_cons_none rfl]

end

theorem Disjunction.mentions_tree (x : Disjunction) :
    x.tree.mentions = x.symbols.filterMap Symbol.index? := by
  rw [tree, mentions_chainOf rfl, mentions_operands]

theorem Conjunction.operands_ne_nil (x : Conjunction) : x.operands ≠ [] := by
  cases x <;> simp [operands]

theorem Disjunction.operands_ne_nil (x : Disjunction) : x.operands ≠ [] := by
  cases x <;> simp [operands]

mutual

theorem Operand.branching_tree : (x : Operand) → x.tree.Branching
  | .index a => Expr.branching_atom a
  | .not x => x.branching_tree.not
  | .group x => branching_chainOf rfl x.operands_ne_nil x.branching_operands

theorem Conjunction.branching_operands : (x : Conjunction) → ∀ e ∈ x.operands, e.Branching
  | .single x => List.forall_mem_singleton.2 x.branching_tree
  | .and x y => List.forall_mem_append.2
      ⟨x.branching_operands, List.forall_mem_singleton.2 y.branching_tree⟩

theorem Disjunction.branching_operands : (x : Disjunction) → ∀ e ∈ x.operands, e.Branching
  | .single x => List.forall_mem_singleton.2
      (branching_chainOf rfl x.operands_ne_nil x.branching_operands)
  | .or x y => List.forall_mem_append.2
      ⟨x.branching_operands, List.forall_mem_singleton.2
        (branching_chainOf rfl y.operands_ne_nil y.branching_operands)⟩

end

theorem Disjunction.branching_tree (x : Disjunction) : x.tree.Branching :=
  branching_chainOf rfl x.operands_ne_nil x.branching_operands

mutual

/-- An operand is at most twice as high as there is room for more negations and groups. -/
theorem Operand.height_tree_le {limit d : Nat} : (x : Operand) → (∀ k ∈ x.depths d, k ≤ limit) →
    x.tree.height ≤ 2 * (limit - d)
  | .index a, _ => Nat.zero_le _
  | .not x, h => by
    obtain ⟨-, hx⟩ := List.forall_mem_cons.1 h
    have hroom := hx _ (x.mem_depths _)
    have hheight := x.height_tree_le hx
    rw [Operand.tree, Expr.height]
    omega
  | .group x, h => by
    obtain ⟨-, hx⟩ := List.forall_mem_cons.1 h
    have hx := (List.forall_mem_append.1 hx).1
    have hroom := hx _ (x.mem_depths _)
    -- what the parenthesis takes from the room pays for the disjunction and the conjunction inside
    have hheight : (Operand.group x).tree.height ≤ 2 * (limit - (d + 1)) + 1 + 1 :=
      height_chainOf_le rfl (x.height_operands_le hx)
    omega

theorem Conjunction.height_operands_le {limit d : Nat} : (x : Conjunction) →
    (∀ k ∈ x.depths d, k ≤ limit) → ∀ e ∈ x.operands, e.height ≤ 2 * (limit - d)
  | .single x, h => List.forall_mem_singleton.2 (x.height_tree_le h)
  | .and x y, h => by
    obtain ⟨hx, hy⟩ := List.forall_mem_append.1 h
    exact List.forall_mem_append.2 ⟨x.height_operands_le hx,
      List.forall_mem_singleton.2 (y.height_tree_le (List.forall_mem_cons.1 hy).2)⟩

theorem Disjunction.height_operands_le {limit d : Nat} : (x : Disjunction) →
    (∀ k ∈ x.depths d, k ≤ limit) → ∀ e ∈ x.operands, e.height ≤ 2 * (limit - d) + 1
  | .single x, h =>
    List.forall_mem_singleton.2 (height_chainOf_le rfl (x.height_operands_le h))
  | .or x y, h => by
    obtain ⟨hx, hy⟩ := List.forall_mem_append.1 h
    exact List.forall_mem_append.2 ⟨x.height_operands_le hx, List.forall_mem_singleton.2
      (height_chainOf_le rfl (y.height_operands_le (List.forall_mem_cons.1 hy).2))⟩

end

/-- An expression has room for a disjunction and a conjunction of its own. -/
theorem Disjunction.height_tree_le {limit : Nat} (x : Disjunction)
    (h : ∀ k ∈ x.depths 0, k ≤ limit) : x.tree.height ≤ 2 * (limit + 1) :=
  height_chainOf_le rfl (x.height_operands_le h)

end Grammar

/-! ### Parsed expressions -/

namespace Expr

/-- Every conjunction and disjunction of a parsed expression has at least two operands, its
attributes are the indices among the tokens of the formula, and its height is at most 514, however
long the formula. So 515 calls inside one another are enough for its value and its attributes. -/
theorem parse_shape {formula : String} {e : Expr} (h : Expr.parse formula = .ok e) :
    (∀ es, NodeOf (.and es) e ∨ NodeOf (.or es) e → 2 ≤ es.length) ∧
      (∃ tokens, Token.ofFormula formula = .ok tokens ∧
        ∀ a, a ∈ (Domain.ofExpr e).attributes ↔ .index a ∈ tokens.map Token.symbol) ∧
      e.height ≤ 2 * (Parser.maxDepth + 1) ∧ 2 * (Parser.maxDepth + 1) = 514 ∧
      (∀ value, e.evalWithin value 515 = some (e.eval value)) ∧
      e.collectWithin 515 .empty = some (Domain.ofExpr e) := by
  obtain ⟨tokens, hscan, x, hsymbols, rfl, hdepths⟩ := Expr.parse_eq_ok_iff.1 h
  have hheight : x.tree.height ≤ 2 * (Parser.maxDepth + 1) := x.height_tree_le hdepths
  have hlt : x.tree.height < 515 := Nat.lt_succ_of_le hheight
  refine ⟨x.branching_tree, ⟨tokens, hscan, fun a => ?_⟩, hheight, rfl,
    fun value => evalWithin_eq value hlt, ?_⟩
  · rw [Domain.mem_ofExpr, x.mentions_tree, hsymbols, Symbol.mem_filterMap_index?]
  · rw [collectWithin_eq hlt, Domain.insertAll_empty]
    rfl

/-- Parentheses leave no node, and one attribute is written in two ways. -/
theorem parse_shape_nested :
    let e : Expr := .and [.or [.atom 0, .not (.and [.atom 1, .atom 2])], .atom 1]
    Expr.parse "(0|!((1&2))) & 01" = .ok e ∧
      (∀ es, NodeOf (.and es) e ∨ NodeOf (.or es) e → 2 ≤ es.length) ∧
      e.height = 4 ∧ e.height ≤ 2 * (Parser.maxDepth + 1) ∧
      (∀ value, e.evalWithin value 515 = some (e.eval value)) ∧
      e.collectWithin 515 .empty = some (Domain.ofExpr e) := by
  intro e
  have htokens : Token.ofFormula "(0|!((1&2))) & 01" =
      .ok [⟨.opening, 0, "("⟩, ⟨.index 0, 1, "0"⟩, ⟨.or, 2, "|"⟩, ⟨.not, 3, "!"⟩,
        ⟨.opening, 4, "("⟩, ⟨.opening, 5, "("⟩, ⟨.index 1, 6, "1"⟩, ⟨.and, 7, "&"⟩,
        ⟨.index 2, 8, "2"⟩, ⟨.closing, 9, ")"⟩, ⟨.closing, 10, ")"⟩, ⟨.closing, 11, ")"⟩,
        ⟨.and, 13, "&"⟩, ⟨.index 1, 15, "01"⟩] := by decide +kernel
  have he : Expr.parse "(0|!((1&2))) & 01" = .ok e := by
    rw [Expr.parse, htokens]
    rfl
  obtain ⟨hbranching, -, hheight, -, heval, hcollect⟩ := parse_shape he
  exact ⟨he, hbranching, rfl, hheight, heval, hcollect⟩

end Expr

end RulePaths
