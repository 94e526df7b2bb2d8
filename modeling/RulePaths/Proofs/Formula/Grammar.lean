import RulePaths.Formula.Parser
import Mathlib.Data.Finset.Lattice.Fold
import Mathlib.Data.List.Induction

/-!
# The parser accepts the grammar

The derivations of the grammar are given as trees. Each yields the symbols that it derives, the
expression it stands for, and how many negations and groups are open around each of its symbols.

The parser is a machine that reads one symbol at a time. Run on the symbols of a derivation it
arrives at the expression of the derivation, unless some symbol lies too deep. Conversely, what it
has read at any time is made up of finished derivations and of what is still open, so whenever it
accepts there is a derivation of what it has read. Since the machine is deterministic, no sequence
of symbols has two derivations that stand for different expressions.

## Main definitions

- `Grammar.Operand`, `Grammar.Conjunction`, `Grammar.Disjunction` — the derivations
- `Parser.State.after` — the state after a sequence of symbols
- `Parser.State.Reads` — what is said of a state by the symbols that led to it

## Main results

- `Grammar.Disjunction.after_eq_some_iff` — the run of the parser on the symbols of a derivation
- `Parser.State.reads_after` — a run of the parser from the start
- `Expr.parse_spec` — a formula is parsed to the expression that the grammar derives from its
  tokens, if none of them lies too deep
-/

namespace RulePaths

/-! ### Derivations -/

namespace Grammar

open RulePaths.Parser

mutual

/-- A derivation of `'!' operand | index | '(' expression ')'`. -/
inductive Operand where
  | index (a : Nat)
  | not (x : Operand)
  | group (x : Disjunction)

/-- A derivation of `operand ( '&' operand )*`. -/
inductive Conjunction where
  | single (x : Operand)
  | and (x : Conjunction) (y : Operand)

/-- A derivation of `conjunction ( '|' conjunction )*`, which is an expression. -/
inductive Disjunction where
  | single (x : Conjunction)
  | or (x : Disjunction) (y : Conjunction)

end

mutual

/-- The symbols that a derivation derives. -/
def Operand.symbols : Operand → List Symbol
  | .index a => [.index a]
  | .not x => .not :: x.symbols
  | .group x => .opening :: (x.symbols ++ [.closing])

/-- The symbols of a chain of operands. -/
def Conjunction.symbols : Conjunction → List Symbol
  | .single x => x.symbols
  | .and x y => x.symbols ++ .and :: y.symbols

/-- The symbols of a chain of conjunctions. -/
def Disjunction.symbols : Disjunction → List Symbol
  | .single x => x.symbols
  | .or x y => x.symbols ++ .or :: y.symbols

end

mutual

/-- The expression that a derivation stands for. -/
def Operand.tree : Operand → Expr
  | .index a => .atom a
  | .not x => .not x.tree
  | .group x => chainOf .or x.operands

/-- The expressions in a chain of operands. -/
def Conjunction.operands : Conjunction → List Expr
  | .single x => [x.tree]
  | .and x y => x.operands ++ [y.tree]

/-- The expressions in a chain of conjunctions. -/
def Disjunction.operands : Disjunction → List Expr
  | .single x => [chainOf .and x.operands]
  | .or x y => x.operands ++ [chainOf .and y.operands]

end

/-- The expression that a derivation stands for: a chain of one is what it is a chain of, and a
longer chain is a single node. -/
def Disjunction.tree (x : Disjunction) : Expr :=
  chainOf .or x.operands

mutual

/-- The number of negations and groups around each symbol, where there are `d` around the whole
derivation. The parentheses of a group lie outside of it. -/
def Operand.depths (d : Nat) : Operand → List Nat
  | .index _ => [d]
  | .not x => d :: x.depths (d + 1)
  | .group x => d :: (x.depths (d + 1) ++ [d])

/-- The number of negations and groups around each symbol of a chain of operands. -/
def Conjunction.depths (d : Nat) : Conjunction → List Nat
  | .single x => x.depths d
  | .and x y => x.depths d ++ d :: y.depths d

/-- The number of negations and groups around each symbol of a chain of conjunctions. -/
def Disjunction.depths (d : Nat) : Disjunction → List Nat
  | .single x => x.depths d
  | .or x y => x.depths d ++ d :: y.depths d

end

theorem Operand.mem_depths (x : Operand) (d : Nat) : d ∈ x.depths d := by
  cases x <;> simp [Operand.depths]

theorem Conjunction.mem_depths (x : Conjunction) (d : Nat) : d ∈ x.depths d := by
  cases x with
  | single x => exact x.mem_depths d
  | and x y => simp [Conjunction.depths]

theorem Disjunction.mem_depths (x : Disjunction) (d : Nat) : d ∈ x.depths d := by
  cases x with
  | single x => exact x.mem_depths d
  | or x y => simp [Disjunction.depths]

/-- The level that has read a derivation. -/
def Disjunction.chain : Disjunction → Chain
  | .single x => ⟨[], x.operands.reverse⟩
  | .or x y => ⟨x.chain.endConjunction.disjuncts, y.operands.reverse⟩

theorem Disjunction.operands_eq : (x : Disjunction) →
    x.operands = x.chain.endConjunction.disjuncts.reverse
  | .single x => by simp [operands, chain, Chain.endConjunction]
  | .or x y => by simp [operands, chain, Chain.endConjunction, x.operands_eq]

/-- Parentheses leave no node. -/
theorem Operand.tree_group (x : Disjunction) : (group x).tree = x.tree := by
  rw [tree, Disjunction.tree]

theorem Disjunction.close_chain (x : Disjunction) : x.chain.close = x.tree := by
  rw [Chain.close, tree, operands_eq]

end Grammar

/-! ### Runs -/

namespace Parser

namespace State

theorem depthOf_cons (level : Level) (outer : List Level) :
    depthOf (level :: outer) = level.negations + 1 + depthOf outer := rfl

/-- The negations and groups that are open. -/
def depth : State → Nat
  | .operand outer level => depthOf outer + level.negations
  | .operator outer _ => depthOf outer

/-- The state after a symbol, wherever it stands. -/
def next? (limit : Nat) (s : State) (a : Symbol) : Option State :=
  (s.step limit ⟨a, 0, ""⟩).toOption

/-- The state after a sequence of symbols. -/
def after (limit : Nat) (s : State) (as : List Symbol) : Option State :=
  as.foldlM (next? limit) s

/-- The place and the text of a token matter for errors only. -/
theorem step_eq_ok_iff {limit : Nat} {s s' : State} {t : Token} :
    s.step limit t = .ok s' ↔ s.next? limit t.symbol = some s' := by
  obtain ⟨a, offset, text⟩ := t
  cases s with
  | operand outer level =>
    cases a with
    | not | opening =>
      simp only [next?, step]
      split <;> simp [Except.toOption]
    | _ => simp [next?, step, Except.toOption]
  | operator outer chain =>
    cases a <;> cases outer <;> simp [next?, step, Except.toOption]

theorem foldlM_step_eq_ok_iff {limit : Nat} {s s' : State} {ts : List Token} :
    ts.foldlM (step limit) s = .ok s' ↔ after limit s (ts.map Token.symbol) = some s' := by
  induction ts generalizing s with
  | nil => simp [after, pure, Except.pure]
  | cons t ts ih =>
    rw [List.foldlM_cons, List.map_cons, after, List.foldlM_cons]
    cases hstep : s.step limit t with
    | error e =>
      have : s.next? limit t.symbol = none := by
        rw [Option.eq_none_iff_forall_not_mem]
        intro s₁ hs₁
        have := (step_eq_ok_iff (t := t)).2 hs₁
        rw [hstep] at this
        cases this
      simp [this, bind, Except.bind]
    | ok s₁ =>
      rw [step_eq_ok_iff.1 hstep]
      exact ih

section Steps

variable {limit : Nat} {outer : List Level} {level : Level} {chain : Chain} {s : State}

@[simp] theorem next?_index {a : Nat} :
    (operand outer level).next? limit (.index a) = some (complete outer level (.atom a)) := rfl

theorem next?_not : (operand outer level).next? limit .not =
    if depthOf outer + level.negations = limit then none
    else some (.operand outer { level with negations := level.negations + 1 }) := by
  simp only [next?, step]
  split <;> rfl

theorem next?_opening : (operand outer level).next? limit .opening =
    if depthOf outer + level.negations = limit then none
    else some (.operand (level :: outer) ⟨.empty, 0⟩) := by
  simp only [next?, step]
  split <;> rfl

@[simp] theorem next?_and :
    (operator outer chain).next? limit .and = some (.operand outer ⟨chain, 0⟩) := rfl

@[simp] theorem next?_or :
    (operator outer chain).next? limit .or = some (.operand outer ⟨chain.endConjunction, 0⟩) := rfl

@[simp] theorem next?_closing : (operator (level :: outer) chain).next? limit .closing =
    some (complete outer level chain.close) := rfl

@[simp] theorem after_nil : after limit s [] = some s := rfl

theorem after_cons_eq_some_iff {s' : State} {a : Symbol} {as : List Symbol} :
    after limit s (a :: as) = some s' ↔
      ∃ s₁, s.next? limit a = some s₁ ∧ after limit s₁ as = some s' := by
  rw [after, List.foldlM_cons]
  exact Option.bind_eq_some_iff

theorem after_append_eq_some_iff {s' : State} {as bs : List Symbol} :
    after limit s (as ++ bs) = some s' ↔
      ∃ s₁, after limit s as = some s₁ ∧ after limit s₁ bs = some s' := by
  rw [after, List.foldlM_append]
  exact Option.bind_eq_some_iff

end Steps

theorem negate_not (n : Nat) (e : Expr) : negate n (.not e) = negate (n + 1) e := by
  induction n with
  | zero => rfl
  | succ n ih => exact congrArg Expr.not ih

end State

end Parser

namespace Grammar

open RulePaths.Parser RulePaths.Parser.State

variable {limit : Nat}

/-- What opens a level of depth leaves room for the level exactly if the level is not too deep. -/
theorem ite_depth_eq_some_iff {d : Nat} (hd : d ≤ limit) {s s' : State} :
    (if d = limit then none else some s) = some s' ↔ d + 1 ≤ limit ∧ s = s' := by
  split <;> simp <;> omega

mutual

/-- The parser reads an operand, unless a symbol of it lies too deep. -/
theorem Operand.after_eq_some_iff (x : Operand) {outer : List Level} (level : Level) {s : State}
    (hd : depthOf outer + level.negations ≤ limit) :
    after limit (.operand outer level) x.symbols = some s ↔
      (∀ k ∈ x.depths (depthOf outer + level.negations), k ≤ limit) ∧
        complete outer level x.tree = s := by
  match x with
  | .index a => simp [Operand.symbols, Operand.depths, Operand.tree, after_cons_eq_some_iff, hd]
  | .not x =>
    simp only [Operand.symbols, Operand.depths, Operand.tree, after_cons_eq_some_iff, next?_not,
      ite_depth_eq_some_iff hd, List.forall_mem_cons]
    -- the operand is read as before, at a level that has counted one more negation
    have hread : depthOf outer + level.negations + 1 ≤ limit →
        (after limit (.operand outer { level with negations := level.negations + 1 }) x.symbols =
            some s ↔
          (∀ k ∈ x.depths (depthOf outer + level.negations + 1), k ≤ limit) ∧
            complete outer level (.not x.tree) = s) := by
      intro hroom
      have hcomplete : complete outer level (.not x.tree) =
          complete outer { level with negations := level.negations + 1 } x.tree := by
        simp only [complete, negate_not]
      rw [hcomplete]
      exact x.after_eq_some_iff _ hroom
    constructor
    · rintro ⟨_, ⟨hroom, rfl⟩, hx⟩
      exact ⟨⟨hd, ((hread hroom).1 hx).1⟩, ((hread hroom).1 hx).2⟩
    · rintro ⟨⟨-, hdepths⟩, hs⟩
      have hroom := hdepths _ (x.mem_depths _)
      exact ⟨_, ⟨hroom, rfl⟩, (hread hroom).2 ⟨hdepths, hs⟩⟩
  | .group x =>
    have hdepth : depthOf (level :: outer) = depthOf outer + level.negations + 1 := by
      rw [depthOf_cons]
      omega
    simp only [Operand.symbols, Operand.depths, Operand.tree, after_cons_eq_some_iff, next?_opening,
      ite_depth_eq_some_iff hd, List.forall_mem_cons, List.forall_mem_append,
      after_append_eq_some_iff, after_nil, Option.some_inj]
    constructor
    · rintro ⟨s₁, ⟨hroom, rfl⟩, s₂, hx, s₃, hclosing, rfl⟩
      obtain ⟨hdepths, rfl⟩ := (x.after_eq_some_iff (hdepth ▸ hroom)).1 hx
      rw [hdepth] at hdepths
      refine ⟨⟨hd, hdepths, by simpa using hd⟩, ?_⟩
      rw [next?_closing, x.close_chain] at hclosing
      exact Option.some_inj.1 hclosing
    · rintro ⟨⟨-, hdepths, -⟩, rfl⟩
      have hroom := hdepths _ (x.mem_depths _)
      refine ⟨_, ⟨hroom, rfl⟩, _,
        (x.after_eq_some_iff (hdepth ▸ hroom)).2 ⟨hdepth ▸ hdepths, rfl⟩, _, next?_closing, ?_⟩
      rw [x.close_chain, Disjunction.tree]

/-- The parser reads a conjunction. -/
theorem Conjunction.after_eq_some_iff (x : Conjunction) {outer : List Level} {es : List Expr}
    {s : State} (hd : depthOf outer ≤ limit) :
    after limit (.operand outer ⟨⟨es, []⟩, 0⟩) x.symbols = some s ↔
      (∀ k ∈ x.depths (depthOf outer), k ≤ limit) ∧
        .operator outer ⟨es, x.operands.reverse⟩ = s := by
  match x with
  | .single x => exact x.after_eq_some_iff _ hd
  | .and x y =>
    simp only [Conjunction.symbols, Conjunction.depths, Conjunction.operands,
      after_append_eq_some_iff, after_cons_eq_some_iff, x.after_eq_some_iff hd,
      List.forall_mem_append, List.forall_mem_cons, List.reverse_append]
    constructor
    · rintro ⟨_, ⟨hx, rfl⟩, _, hand, hy⟩
      obtain rfl := Option.some_inj.1 hand
      obtain ⟨hdepths, rfl⟩ := (y.after_eq_some_iff ⟨_, 0⟩ hd).1 hy
      exact ⟨⟨hx, hd, hdepths⟩, rfl⟩
    · rintro ⟨⟨hx, -, hdepths⟩, rfl⟩
      exact ⟨_, ⟨hx, rfl⟩, _, next?_and,
        (y.after_eq_some_iff ⟨_, 0⟩ hd).2 ⟨hdepths, rfl⟩⟩

/-- The parser reads an expression. -/
theorem Disjunction.after_eq_some_iff (x : Disjunction) {outer : List Level} {s : State}
    (hd : depthOf outer ≤ limit) :
    after limit (.operand outer ⟨.empty, 0⟩) x.symbols = some s ↔
      (∀ k ∈ x.depths (depthOf outer), k ≤ limit) ∧ .operator outer x.chain = s := by
  match x with
  | .single x => exact x.after_eq_some_iff hd
  | .or x y =>
    simp only [Disjunction.symbols, Disjunction.depths, after_append_eq_some_iff,
      after_cons_eq_some_iff, x.after_eq_some_iff hd, List.forall_mem_append,
      List.forall_mem_cons]
    constructor
    · rintro ⟨_, ⟨hx, rfl⟩, _, hor, hy⟩
      obtain rfl := Option.some_inj.1 hor
      obtain ⟨hdepths, rfl⟩ := (y.after_eq_some_iff hd).1 hy
      exact ⟨⟨hx, hd, hdepths⟩, rfl⟩
    · rintro ⟨⟨hx, -, hdepths⟩, rfl⟩
      exact ⟨_, ⟨hx, rfl⟩, _, next?_or, (y.after_eq_some_iff hd).2 ⟨hdepths, rfl⟩⟩

end

/-- The run of the parser on the symbols of an expression. -/
theorem Disjunction.after_start_eq_some_iff (x : Disjunction) {s : State} :
    after limit .start x.symbols = some s ↔
      (∀ k ∈ x.depths 0, k ≤ limit) ∧ .operator [] x.chain = s :=
  x.after_eq_some_iff (Nat.zero_le limit)

/-- Some number of open negations and groups is enough for a derivation. -/
theorem Disjunction.exists_forall_depths_le (x : Disjunction) :
    ∃ limit, ∀ k ∈ x.depths 0, k ≤ limit :=
  ⟨(x.depths 0).toFinset.sup id, fun _ hk => Finset.le_sup (f := id) (List.mem_toFinset.2 hk)⟩

/-- Derivations of the same symbols stand for the same expression. -/
theorem Disjunction.tree_eq_of_symbols_eq {x y : Disjunction} (h : x.symbols = y.symbols) :
    x.tree = y.tree := by
  obtain ⟨m, hx⟩ := x.exists_forall_depths_le
  obtain ⟨n, hy⟩ := y.exists_forall_depths_le
  -- under a limit that both keep, the parser reads the symbols once for both
  have hread : ∀ z : Disjunction, (∀ k ∈ z.depths 0, k ≤ max m n) →
      after (max m n) .start z.symbols = some (.operator [] z.chain) := fun z hz =>
    z.after_start_eq_some_iff.2 ⟨hz, rfl⟩
  have hstate := (hread x fun k hk => le_max_of_le_left (hx k hk)).symm.trans
    (h ▸ hread y fun k hk => le_max_of_le_right (hy k hk))
  have hchain : x.chain = y.chain := by simpa using hstate
  rw [← x.close_chain, ← y.close_chain, hchain]

theorem Disjunction.symbols_ne_nil (x : Disjunction) : x.symbols ≠ [] := by
  intro hnil
  obtain ⟨limit, hx⟩ := x.exists_forall_depths_le
  have hread := x.after_start_eq_some_iff.2 ⟨hx, rfl⟩
  rw [hnil] at hread
  cases hread

/-! ### What has been read -/

/-- An operand under negations. -/
def Operand.negated : Nat → Operand → Operand
  | 0, x => x
  | n + 1, x => .not (x.negated n)

theorem Operand.symbols_negated (n : Nat) (x : Operand) :
    (x.negated n).symbols = List.replicate n .not ++ x.symbols := by
  induction n with
  | zero => rfl
  | succ n ih => rw [negated, symbols, ih, List.replicate_succ, List.cons_append]

theorem Operand.tree_negated (n : Nat) (x : Operand) : (x.negated n).tree = negate n x.tree := by
  induction n with
  | zero => rfl
  | succ n ih => rw [negated, tree, ih, negate]

end Grammar

namespace Parser

open Grammar

/-- The symbols of a level that waits for an operand. -/
inductive Chain.Pending : Chain → List Symbol → Prop where
  | start : Pending .empty []
  | and (x : Disjunction) : Pending x.chain (x.symbols ++ [.and])
  | or (x : Disjunction) : Pending x.chain.endConjunction (x.symbols ++ [.or])

/-- An operand makes an expression of a level that waited for it. -/
theorem Chain.Pending.push {chain : Chain} {as : List Symbol} (h : chain.Pending as) (y : Operand) :
    ∃ x : Disjunction, x.chain = chain.push y.tree ∧ x.symbols = as ++ y.symbols := by
  cases h with
  | start => exact ⟨.single (.single y), rfl, rfl⟩
  | and x =>
    cases x with
    | single x =>
      refine ⟨.single (.and x y), ?_, ?_⟩
      · simp [Disjunction.chain, Conjunction.operands, Chain.push]
      · simp [Disjunction.symbols, Conjunction.symbols]
    | or x z =>
      refine ⟨.or x (.and z y), ?_, ?_⟩
      · simp [Disjunction.chain, Conjunction.operands, Chain.push]
      · simp [Disjunction.symbols, Conjunction.symbols]
  | or x =>
    refine ⟨.or x (.single y), rfl, ?_⟩
    simp [Disjunction.symbols, Conjunction.symbols]

/-- The symbols of the levels around a group, up to where the group was opened. -/
inductive Level.Opened : List Level → List Symbol → Prop where
  | nil : Opened [] []
  | cons {outer : List Level} {chain : Chain} {n : Nat} {as bs : List Symbol} :
      Opened outer as → chain.Pending bs →
        Opened (⟨chain, n⟩ :: outer) (as ++ (bs ++ List.replicate n .not) ++ [.opening])

/-- What a state has read: some levels that were opened, and of the current one either what
precedes an operand, or an expression so far. -/
inductive State.Reads : State → List Symbol → Prop where
  | operand {outer : List Level} {chain : Chain} {n : Nat} {as bs : List Symbol} :
      Level.Opened outer as → chain.Pending bs →
        Reads (.operand outer ⟨chain, n⟩) (as ++ (bs ++ List.replicate n .not))
  | operator {outer : List Level} {as : List Symbol} (x : Disjunction) :
      Level.Opened outer as → Reads (.operator outer x.chain) (as ++ x.symbols)

namespace State

theorem Reads.operand_zero {outer : List Level} {chain : Chain} {as bs : List Symbol}
    (houter : Level.Opened outer as) (hlevel : chain.Pending bs) :
    (State.operand outer ⟨chain, 0⟩).Reads (as ++ bs) := by
  have hreads := Reads.operand (n := 0) houter hlevel
  rwa [List.replicate_zero, List.append_nil] at hreads

theorem reads_start : start.Reads [] :=
  .operand_zero .nil .start

/-- After the operand that a level waited for. -/
theorem reads_complete {outer : List Level} {chain : Chain} {as bs : List Symbol}
    (houter : Level.Opened outer as) (hlevel : chain.Pending bs) (n : Nat) (y : Operand) :
    (complete outer ⟨chain, n⟩ y.tree).Reads
      (as ++ (bs ++ List.replicate n .not) ++ y.symbols) := by
  obtain ⟨x, hchain, hsymbols⟩ := hlevel.push (y.negated n)
  have hreads := Reads.operator x houter
  rw [hchain, hsymbols, y.symbols_negated, y.tree_negated] at hreads
  simpa only [complete, List.append_assoc] using hreads

/-- A step reads one symbol more. -/
theorem Reads.next {limit : Nat} {s s' : State} {a : Symbol} {as : List Symbol} (h : s.Reads as)
    (hstep : s.next? limit a = some s') : s'.Reads (as ++ [a]) := by
  cases h with
  | @operand outer chain n as bs houter hlevel =>
    cases a with
    | index a =>
      obtain rfl := Option.some_inj.1 hstep
      exact reads_complete houter hlevel n (.index a)
    | not =>
      rw [next?_not] at hstep
      split at hstep
      · cases hstep
      · obtain rfl := Option.some_inj.1 hstep
        rw [List.append_assoc, List.append_assoc, ← List.replicate_succ']
        exact .operand houter hlevel
    | opening =>
      rw [next?_opening] at hstep
      split at hstep
      · cases hstep
      · obtain rfl := Option.some_inj.1 hstep
        simpa using Reads.operand_zero (houter.cons hlevel) .start
    | and | or | closing => cases hstep
  | @operator outer as x houter =>
    cases a with
    | and =>
      obtain rfl := Option.some_inj.1 hstep
      simpa using Reads.operand_zero houter (.and x)
    | or =>
      obtain rfl := Option.some_inj.1 hstep
      simpa using Reads.operand_zero houter (.or x)
    | closing =>
      cases houter with
      | nil => cases hstep
      | @cons around chain n as bs houter hlevel =>
        obtain rfl := Option.some_inj.1 hstep
        -- the level around waited for the group that is now closed
        have hreads := reads_complete houter hlevel n (.group x)
        rw [x.close_chain, ← Operand.tree_group]
        simpa only [Operand.symbols, List.append_assoc, List.cons_append, List.nil_append]
          using hreads
    | index | not | opening => cases outer <;> cases hstep

/-- A run from the start has read what it was run on. -/
theorem reads_after {limit : Nat} {s : State} {as : List Symbol}
    (h : after limit start as = some s) : s.Reads as := by
  induction as using List.reverseRecOn generalizing s with
  | nil =>
    obtain rfl := Option.some_inj.1 h
    exact reads_start
  | append_singleton as a ih =>
    obtain ⟨s₁, has, ha⟩ := after_append_eq_some_iff.1 h
    obtain ⟨s₂, hnext, hs₂⟩ := after_cons_eq_some_iff.1 ha
    obtain rfl := Option.some_inj.1 hs₂
    exact (ih has).next hnext

/-- Whatever is accepted has a derivation, with nothing too deep. -/
theorem exists_derivation {limit : Nat} {chain : Chain} {as : List Symbol}
    (h : after limit start as = some (.operator [] chain)) :
    ∃ x : Disjunction, x.symbols = as ∧ x.chain = chain ∧ ∀ k ∈ x.depths 0, k ≤ limit := by
  cases reads_after h with
  | operator x houter =>
    cases houter
    rw [List.nil_append] at h ⊢
    exact ⟨x, rfl, rfl, (x.after_start_eq_some_iff.1 h).1⟩

theorem finish_eq_ok_iff {stop : Nat} {s : State} {e : Expr} :
    s.finish stop = .ok e ↔ ∃ chain, s = .operator [] chain ∧ chain.close = e := by
  cases s with
  | operand outer level => simp [finish]
  | operator outer chain => cases outer <;> simp [finish]

end State

/-- The parser accepts what the grammar derives, as far as nothing lies too deep. -/
theorem ofTokens_eq_ok_iff {limit stop : Nat} {tokens : List Token} {e : Expr} :
    ofTokens limit stop tokens = .ok e ↔
      ∃ x : Disjunction, x.symbols = tokens.map Token.symbol ∧ x.tree = e ∧
        ∀ k ∈ x.depths 0, k ≤ limit := by
  have hbind : ofTokens limit stop tokens = .ok e ↔
      ∃ s, tokens.foldlM (State.step limit) .start = .ok s ∧ s.finish stop = .ok e := by
    unfold ofTokens
    cases tokens.foldlM (State.step limit) .start <;> simp [bind, Except.bind]
  rw [hbind]
  constructor
  · rintro ⟨s, hs, hfinish⟩
    obtain ⟨chain, rfl, rfl⟩ := State.finish_eq_ok_iff.1 hfinish
    obtain ⟨x, hsymbols, rfl, hdepths⟩ :=
      State.exists_derivation (State.foldlM_step_eq_ok_iff.1 hs)
    exact ⟨x, hsymbols, x.close_chain.symm, hdepths⟩
  · rintro ⟨x, hsymbols, rfl, hdepths⟩
    refine ⟨.operator [] x.chain, State.foldlM_step_eq_ok_iff.2 ?_,
      State.finish_eq_ok_iff.2 ⟨_, rfl, x.close_chain⟩⟩
    rw [← hsymbols, x.after_start_eq_some_iff]
    exact ⟨hdepths, rfl⟩

end Parser

theorem Expr.parse_eq_ofTokens {formula : String} {tokens : List Token}
    (h : Token.ofFormula formula = .ok tokens) (hne : tokens ≠ []) :
    Expr.parse formula = Parser.ofTokens Parser.maxDepth formula.utf8ByteSize tokens := by
  rw [Expr.parse, h]
  cases tokens with
  | nil => exact absurd rfl hne
  | cons t ts => rfl

theorem Expr.parse_eq_ok_iff {formula : String} {e : Expr} : Expr.parse formula = .ok e ↔
    ∃ tokens, Token.ofFormula formula = .ok tokens ∧
      ∃ x : Grammar.Disjunction, x.symbols = tokens.map Token.symbol ∧ x.tree = e ∧
        ∀ k ∈ x.depths 0, k ≤ Parser.maxDepth := by
  constructor
  · intro hparse
    cases hscan : Token.ofFormula formula with
    | error err =>
      rw [Expr.parse, hscan] at hparse
      cases hparse
    | ok tokens =>
      have hne : tokens ≠ [] := by
        rintro rfl
        rw [Expr.parse, hscan] at hparse
        cases hparse
      rw [Expr.parse_eq_ofTokens hscan hne] at hparse
      exact ⟨tokens, rfl, Parser.ofTokens_eq_ok_iff.1 hparse⟩
  · rintro ⟨tokens, hscan, x, hsymbols, htree, hdepths⟩
    have hne : tokens ≠ [] := by
      rintro rfl
      exact x.symbols_ne_nil hsymbols
    rw [Expr.parse_eq_ofTokens hscan hne]
    exact Parser.ofTokens_eq_ok_iff.2 ⟨x, hsymbols, htree, hdepths⟩

/-- A formula is parsed to an expression if and only if the grammar derives the expression from the
tokens of the formula and no token lies under more than 256 negations and groups. No sequence of
tokens has derivations of different expressions. -/
theorem Expr.parse_spec :
    (∀ (formula : String) (e : Expr), Expr.parse formula = .ok e ↔
      ∃ tokens, Token.ofFormula formula = .ok tokens ∧
        ∃ x : Grammar.Disjunction, x.symbols = tokens.map Token.symbol ∧ x.tree = e ∧
          ∀ k ∈ x.depths 0, k ≤ 256) ∧
      ∀ x y : Grammar.Disjunction, x.symbols = y.symbols → x.tree = y.tree :=
  ⟨fun _ _ => Expr.parse_eq_ok_iff, fun _ _ => Grammar.Disjunction.tree_eq_of_symbols_eq⟩

/-- The negation of a group binds closer than the conjunction that it is an operand of. -/
theorem Expr.parse_spec_negatedGroup :
    Expr.parse "!(0|1)&2" = .ok (.and [.not (.or [.atom 0, .atom 1]), .atom 2]) ∧
      ∀ x : Grammar.Disjunction,
        x.symbols = [.not, .opening, .index 0, .or, .index 1, .closing, .and, .index 2] →
          x.tree = .and [.not (.or [.atom 0, .atom 1]), .atom 2] := by
  let group : Grammar.Disjunction := .or (.single (.single (.index 0))) (.single (.index 1))
  let x : Grammar.Disjunction := .single (.and (.single (.not (.group group))) (.index 2))
  have hscan : ∃ tokens, Token.ofFormula "!(0|1)&2" = .ok tokens ∧
      x.symbols = tokens.map Token.symbol :=
    ⟨[⟨.not, 0, "!"⟩, ⟨.opening, 1, "("⟩, ⟨.index 0, 2, "0"⟩, ⟨.or, 3, "|"⟩, ⟨.index 1, 4, "1"⟩,
      ⟨.closing, 5, ")"⟩, ⟨.and, 6, "&"⟩, ⟨.index 2, 7, "2"⟩], by decide +kernel, rfl⟩
  obtain ⟨tokens, hscan, hsymbols⟩ := hscan
  exact ⟨(Expr.parse_spec.1 _ _).2 ⟨tokens, hscan, x, hsymbols, rfl, by decide⟩,
    fun y hy => Expr.parse_spec.2 y x hy⟩

end RulePaths
