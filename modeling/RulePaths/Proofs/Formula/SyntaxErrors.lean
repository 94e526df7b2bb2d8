import RulePaths.Proofs.Formula.Grammar
import RulePaths.Proofs.Formula.Scanning

/-!
# Syntax errors point at the first fault

Whatever state the parser has reached, what it has read can be continued to a formula: an operand
follows if one has to, and then all open groups are closed. This opens nothing, so no limit stands
in the way. The parser reports a token exactly if it cannot read it, and then the symbols so far
with this one can be continued to nothing that the grammar derives; or, if the token opens one
negation or group too many, to nothing without going too deep.

## Main definitions

- `Grammar.Sentence`, `Grammar.SentenceWithin` — what the grammar derives
- `Parser.Continuable` — what formulas that are parsed begin with
- `Parser.LiesAt` — a token of a formula, with the text before it
- `Parser.FirstFault` — where a formula goes wrong

## Main results

- `Parser.State.step_eq_error` — what makes the parser report a token
- `Parser.State.sentenceWithin_completion`, `Parser.State.exists_after_of_sentence` — what a state
  says of how its symbols can be continued
- `Expr.parse_error_spec` — a syntax error reports the first fault of the formula
-/

namespace RulePaths

open RulePaths.Grammar

namespace Grammar

/-- The grammar derives the symbols. -/
def Sentence (as : List Symbol) : Prop :=
  ∃ x : Disjunction, x.symbols = as

/-- The grammar derives the symbols, and none of them lies under more than `limit` negations and
groups. -/
def SentenceWithin (limit : Nat) (as : List Symbol) : Prop :=
  ∃ x : Disjunction, x.symbols = as ∧ ∀ k ∈ x.depths 0, k ≤ limit

end Grammar

namespace Parser

namespace State

/-! ### What continues a formula -/

/-- An operand, if one has to follow, and the ends of all open groups. -/
def completion : State → List Symbol
  | .operand outer _ => .index 0 :: List.replicate outer.length .closing
  | .operator outer _ => List.replicate outer.length .closing

/-- A text of what completes a formula. -/
def completionText : State → List Char
  | .operand outer _ => ' ' :: '0' :: List.replicate outer.length ')'
  | .operator outer _ => List.replicate outer.length ')'

theorem after_closing (limit : Nat) (outer : List Level) (chain : Chain) :
    ∃ chain', after limit (.operator outer chain) (List.replicate outer.length .closing) =
      some (.operator [] chain') := by
  induction outer generalizing chain with
  | nil => exact ⟨chain, rfl⟩
  | cons level outer ih =>
    obtain ⟨chain', hchain'⟩ := ih (level.chain.push (negate level.negations chain.close))
    exact ⟨chain', after_cons_eq_some_iff.2 ⟨_, next?_closing, hchain'⟩⟩

/-- The completion is read under any limit. -/
theorem after_completion (limit : Nat) (s : State) :
    ∃ chain, after limit s s.completion = some (.operator [] chain) := by
  cases s with
  | operand outer level =>
    obtain ⟨chain, hchain⟩ :=
      after_closing limit outer (level.chain.push (negate level.negations (.atom 0)))
    exact ⟨chain, after_cons_eq_some_iff.2 ⟨_, next?_index, hchain⟩⟩
  | operator outer chain => exact after_closing limit outer chain

theorem scanned_closing (n offset : Nat) :
    ∃ us, Token.Scanned offset (List.replicate n ')') us ∧
      us.map Token.symbol = List.replicate n .closing := by
  induction n generalizing offset with
  | zero => exact ⟨[], .nil, rfl⟩
  | succ n ih =>
    obtain ⟨us, hus, hsymbols⟩ := ih (offset + ')'.utf8Size)
    exact ⟨_, .operator (by decide) rfl hus, congrArg (Symbol.closing :: ·) hsymbols⟩

theorem scanned_completionText (s : State) (offset : Nat) :
    ∃ us, Token.Scanned offset s.completionText us ∧ us.map Token.symbol = s.completion := by
  cases s with
  | operand outer level =>
    obtain ⟨us, hus, hsymbols⟩ :=
      scanned_closing outer.length (offset + ' '.utf8Size + ['0'].length)
    have hhead : ∀ c ∈ (List.replicate outer.length ')').head?, c.isDigit = false := by
      cases outer <;> simp [List.replicate_succ]
    have hzero : ∀ c ∈ ['0'], c.isDigit = true := List.forall_mem_singleton.2 rfl
    exact ⟨_, .blank (by decide) (.index (by decide) rfl hzero hhead (by decide) hus),
      congrArg (Symbol.index 0 :: ·) hsymbols⟩
  | operator outer chain => exact scanned_closing outer.length offset

theorem head?_completionText (s : State) : ∀ c ∈ s.completionText.head?, c.isDigit = false := by
  cases s with
  | operand outer level => simp [completionText]
  | operator outer chain => cases outer <;> simp [completionText, List.replicate_succ]

/-! ### Limits -/

/-- What is read under a limit is read under any larger one, and does not go deeper. -/
theorem next?_of_le {limit limit' : Nat} {s s' : State} {a : Symbol} (hle : limit ≤ limit')
    (hdepth : s.depth ≤ limit) (h : s.next? limit a = some s') :
    s.next? limit' a = some s' ∧ s'.depth ≤ limit := by
  cases s with
  | operand outer level =>
    have hdepth : depthOf outer + level.negations ≤ limit := hdepth
    cases a with
    | index a =>
      obtain rfl := Option.some_inj.1 h
      exact ⟨rfl, by simp only [complete, depth]; omega⟩
    | not =>
      rw [next?_not] at h ⊢
      split at h
      · cases h
      · obtain rfl := Option.some_inj.1 h
        exact ⟨if_neg (by omega), by simp only [depth]; omega⟩
    | opening =>
      rw [next?_opening] at h ⊢
      split at h
      · cases h
      · obtain rfl := Option.some_inj.1 h
        refine ⟨if_neg (by omega), ?_⟩
        simp only [depth, depthOf_cons]
        omega
    | and | or | closing => cases h
  | operator outer chain =>
    cases a with
    | and | or =>
      obtain rfl := Option.some_inj.1 h
      exact ⟨rfl, hdepth⟩
    | closing =>
      cases outer with
      | nil => cases h
      | cons level outer =>
        obtain rfl := Option.some_inj.1 h
        refine ⟨rfl, ?_⟩
        simp only [depth, depthOf_cons, complete] at hdepth ⊢
        omega
    | index | not | opening => cases outer <;> cases h

theorem after_of_le {limit limit' : Nat} {s s' : State} {as : List Symbol} (hle : limit ≤ limit')
    (hdepth : s.depth ≤ limit) (h : after limit s as = some s') :
    after limit' s as = some s' ∧ s'.depth ≤ limit := by
  induction as generalizing s with
  | nil =>
    obtain rfl := Option.some_inj.1 h
    exact ⟨rfl, hdepth⟩
  | cons a as ih =>
    obtain ⟨s₁, hnext, has⟩ := after_cons_eq_some_iff.1 h
    obtain ⟨hnext, hdepth⟩ := next?_of_le hle hdepth hnext
    obtain ⟨has, hdepth⟩ := ih hdepth has
    exact ⟨after_cons_eq_some_iff.2 ⟨s₁, hnext, has⟩, hdepth⟩

/-! ### Errors -/

/-- What makes the parser report a token: it cannot follow under any limit, or it would be read if
the limit were larger. -/
theorem step_eq_error {limit : Nat} {s : State} {t : Token} {err : FormulaError}
    (h : s.step limit t = .error err) :
    ((∃ expected, err = .unexpectedToken expected t.text t.offset) ∧
        ∀ limit', s.next? limit' t.symbol = none) ∨
      err = .tooDeep limit t.span ∧
        ∀ limit', limit < limit' → ∃ s', s.next? limit' t.symbol = some s' := by
  obtain ⟨a, offset, text⟩ := t
  cases s with
  | operand outer level =>
    cases a with
    | index a => cases h
    | not | opening =>
      simp only [step] at h
      split at h
      · next hfull =>
        cases h
        refine .inr ⟨rfl, fun limit' hlimit => ?_⟩
        simp only [next?_not, next?_opening]
        rw [if_neg (by omega)]
        exact ⟨_, rfl⟩
      · cases h
    | and | or | closing =>
      cases h
      exact .inl ⟨⟨_, rfl⟩, fun _ => rfl⟩
  | operator outer chain =>
    cases a with
    | and | or => cases h
    | closing =>
      cases outer with
      | nil =>
        cases h
        exact .inl ⟨⟨_, rfl⟩, fun _ => rfl⟩
      | cons level outer => cases h
    | index | not | opening =>
      cases outer <;>
      · cases h
        exact .inl ⟨⟨_, rfl⟩, fun _ => rfl⟩

theorem finish_eq_error {stop : Nat} {s : State} {err : FormulaError}
    (h : s.finish stop = .error err) :
    (∃ expected, err = .unexpectedEnd expected stop) ∧ ∀ chain, s ≠ .operator [] chain := by
  cases s with
  | operand outer level =>
    cases h
    exact ⟨⟨_, rfl⟩, fun _ => nofun⟩
  | operator outer chain =>
    cases outer with
    | nil => cases h
    | cons level outer =>
      cases h
      exact ⟨⟨_, rfl⟩, fun _ => nofun⟩

/-- A run that fails has read the tokens before the one it reports. -/
theorem foldlM_step_eq_error {limit : Nat} {s : State} {ts : List Token} {err : FormulaError}
    (h : ts.foldlM (step limit) s = .error err) :
    ∃ k t s', ts[k]? = some t ∧ after limit s ((ts.take k).map Token.symbol) = some s' ∧
      s'.step limit t = .error err := by
  induction ts generalizing s with
  | nil => cases h
  | cons t ts ih =>
    rw [List.foldlM_cons] at h
    cases hstep : s.step limit t with
    | error err' =>
      rw [hstep] at h
      cases h
      exact ⟨0, t, s, rfl, rfl, hstep⟩
    | ok s₁ =>
      rw [hstep] at h
      obtain ⟨k, t', s', ht', hafter, herror⟩ := ih h
      exact ⟨k + 1, t', s', ht',
        after_cons_eq_some_iff.2 ⟨s₁, step_eq_ok_iff.1 hstep, hafter⟩, herror⟩

/-! ### What a state says of its symbols -/

section Read

variable {limit : Nat} {s : State} {as : List Symbol} (h : after limit start as = some s)
include h

/-- The symbols of a state are a sentence after its completion, and not a deeper one. -/
theorem sentenceWithin_completion : SentenceWithin limit (as ++ s.completion) := by
  obtain ⟨chain, hchain⟩ := after_completion limit s
  obtain ⟨x, hsymbols, -, hdepths⟩ :=
    exists_derivation (after_append_eq_some_iff.2 ⟨s, h, hchain⟩)
  exact ⟨x, hsymbols, hdepths⟩

/-- Whatever continues the symbols to a sentence is read from the state on, under a limit that is
large enough. -/
theorem exists_after_of_sentence {rest : List Symbol} (hsentence : Sentence (as ++ rest)) :
    ∃ limit' chain, after limit' s rest = some (.operator [] chain) := by
  obtain ⟨x, hsymbols⟩ := hsentence
  obtain ⟨deepest, hdeepest⟩ := x.exists_forall_depths_le
  have hread : after (max limit deepest) start (as ++ rest) = some (.operator [] x.chain) := by
    rw [← hsymbols, x.after_start_eq_some_iff]
    exact ⟨fun k hk => Nat.le_trans (hdeepest k hk) (Nat.le_max_right _ _), rfl⟩
  obtain ⟨s₁, has, hrest⟩ := after_append_eq_some_iff.1 hread
  have hs := (after_of_le (Nat.le_max_left limit deepest) (Nat.zero_le _) h).1
  obtain rfl : s = s₁ := Option.some_inj.1 (hs.symm.trans has)
  exact ⟨_, _, hrest⟩

/-- Within the limit, the symbols go on to a sentence only if the state goes on to read it. -/
theorem exists_after_of_sentenceWithin {rest : List Symbol}
    (hsentence : SentenceWithin limit (as ++ rest)) :
    ∃ chain, after limit s rest = some (.operator [] chain) := by
  obtain ⟨x, hsymbols, hdepths⟩ := hsentence
  have hread : after limit start (as ++ rest) = some (.operator [] x.chain) := by
    rw [← hsymbols, x.after_start_eq_some_iff]
    exact ⟨hdepths, rfl⟩
  obtain ⟨s₁, has, hrest⟩ := after_append_eq_some_iff.1 hread
  obtain rfl : s = s₁ := Option.some_inj.1 (h.symm.trans has)
  exact ⟨_, hrest⟩

end Read

end State

/-- A text with the given tokens can be continued to a formula that is parsed. -/
def Continuable (text : String) (tokens : List Token) : Prop :=
  ∃ more rest e, Token.ofFormula (text ++ more) = .ok (tokens ++ rest) ∧
    Expr.parse (text ++ more) = .ok e

theorem continuable_of_after {text : String} {tokens : List Token} {s : State}
    (hscan : Token.ofFormula text = .ok tokens)
    (h : State.after maxDepth .start (tokens.map Token.symbol) = some s) :
    Continuable text tokens := by
  obtain ⟨us, hus, hsymbols⟩ := s.scanned_completionText text.utf8ByteSize
  have hscan := Token.ofFormula_append hscan s.head?_completionText hus
  obtain ⟨x, hx, hdepths⟩ := State.sentenceWithin_completion h
  refine ⟨String.ofList s.completionText, us, x.tree, hscan, ?_⟩
  rw [Expr.parse_eq_ok_iff]
  exact ⟨_, hscan, x, by rw [hx, List.map_append, hsymbols], rfl, hdepths⟩

/-! ### The first fault -/

/-- A token of a formula, with the text before it: it is the slice of the formula at its offset, and
the text before it has the tokens before it. -/
structure LiesAt (formula : String) (tokens : List Token) (k : Nat) (t : Token) (before : String) :
    Prop where
  getElem? : tokens[k]? = some t
  slice : ∃ after, formula = before ++ t.text ++ after
  offset : t.offset = before.utf8ByteSize
  tokens_before : Token.ofFormula before = .ok (tokens.take k)

/-- What an error says of the tokens of a formula, with the place it points at. -/
inductive FirstFault (formula : String) (tokens : List Token) : FormulaError → Span → Prop where
  /-- What precedes the token can be continued, but nothing continues it with the token. -/
  | unexpectedToken {k : Nat} {t : Token} {before : String} {expected : Expected} :
      LiesAt formula tokens k t before → Continuable before (tokens.take k) →
        (∀ rest, ¬ Sentence ((tokens.take (k + 1)).map Token.symbol ++ rest)) →
          FirstFault formula tokens (.unexpectedToken expected t.text t.offset) t.span
  /-- The whole formula can be continued, but is no sentence. -/
  | unexpectedEnd {expected : Expected} :
      Continuable formula tokens → ¬ Sentence (tokens.map Token.symbol) →
        FirstFault formula tokens (.unexpectedEnd expected formula.utf8ByteSize)
          ⟨formula.utf8ByteSize, 0⟩
  /-- What precedes the token can be continued, and with the token to sentences that nest too deep
  only. -/
  | tooDeep {k : Nat} {t : Token} {before : String} :
      LiesAt formula tokens k t before → Continuable before (tokens.take k) →
        (∃ rest, Sentence ((tokens.take (k + 1)).map Token.symbol ++ rest)) →
          (∀ rest, ¬ SentenceWithin 256 ((tokens.take (k + 1)).map Token.symbol ++ rest)) →
            FirstFault formula tokens (.tooDeep 256 t.span) t.span

theorem map_take_succ {tokens : List Token} {k : Nat} {t : Token} (ht : tokens[k]? = some t) :
    (tokens.take (k + 1)).map Token.symbol =
      (tokens.take k).map Token.symbol ++ [t.symbol] := by
  rw [List.take_add_one, ht, Option.toList_some, List.map_append, List.map_singleton]

/-- The fault at a token that the parser cannot read. -/
theorem firstFault_of_step {formula : String} {tokens : List Token} {err : FormulaError} {k : Nat}
    {t : Token} {s : State} (hscan : Token.ofFormula formula = .ok tokens)
    (ht : tokens[k]? = some t)
    (hread : State.after maxDepth .start ((tokens.take k).map Token.symbol) = some s)
    (herror : s.step maxDepth t = .error err) : FirstFault formula tokens err t.span := by
  obtain ⟨before, rest, hslice, hoffset, hbefore⟩ := Token.exists_before hscan ht
  have hlies : LiesAt formula tokens k t before := ⟨ht, ⟨rest, hslice⟩, hoffset, hbefore⟩
  have hcontinuable := continuable_of_after hbefore hread
  rcases State.step_eq_error herror with ⟨⟨expected, rfl⟩, hnone⟩ | ⟨rfl, hsome⟩
  · -- a sentence with the token would be read under a larger limit, but the token never is
    refine .unexpectedToken hlies hcontinuable fun rest hsentence => ?_
    rw [map_take_succ ht, List.append_assoc] at hsentence
    obtain ⟨limit', chain, hrest⟩ := State.exists_after_of_sentence hread hsentence
    obtain ⟨s₁, hnext, -⟩ := State.after_cons_eq_some_iff.1 hrest
    rw [hnone] at hnext
    cases hnext
  · refine .tooDeep hlies hcontinuable ?_ fun rest hsentence => ?_
    · -- one level more is enough to read the token and to complete what follows on it
      obtain ⟨s₁, hnext⟩ := hsome (maxDepth + 1) (Nat.lt_succ_self _)
      have hread := (State.after_of_le (Nat.le_succ maxDepth) (Nat.zero_le _) hread).1
      obtain ⟨x, hsymbols, -⟩ := State.sentenceWithin_completion
        (State.after_append_eq_some_iff.2
          ⟨s, hread, State.after_cons_eq_some_iff.2 ⟨s₁, hnext, State.after_nil⟩⟩)
      rw [map_take_succ ht]
      exact ⟨s₁.completion, x, hsymbols⟩
    · rw [map_take_succ ht, List.append_assoc] at hsentence
      obtain ⟨chain, hrest⟩ := State.exists_after_of_sentenceWithin hread hsentence
      obtain ⟨s₁, hnext, -⟩ := State.after_cons_eq_some_iff.1 hrest
      rw [← State.step_eq_ok_iff, herror] at hnext
      cases hnext

/-- The fault of a formula that ends too early. -/
theorem firstFault_of_finish {formula : String} {tokens : List Token} {err : FormulaError}
    {s : State} (hscan : Token.ofFormula formula = .ok tokens)
    (hread : State.after maxDepth .start (tokens.map Token.symbol) = some s)
    (herror : s.finish formula.utf8ByteSize = .error err) :
    FirstFault formula tokens err ⟨formula.utf8ByteSize, 0⟩ := by
  obtain ⟨⟨expected, rfl⟩, hne⟩ := State.finish_eq_error herror
  refine .unexpectedEnd (continuable_of_after hscan hread) fun hsentence => ?_
  rw [← List.append_nil (tokens.map Token.symbol)] at hsentence
  obtain ⟨limit', chain, hchain⟩ := State.exists_after_of_sentence hread hsentence
  exact hne chain (Option.some_inj.1 hchain)

/-- Tokens that are not parsed have a first fault. -/
theorem exists_firstFault {formula : String} {tokens : List Token} {err : FormulaError}
    (hscan : Token.ofFormula formula = .ok tokens)
    (herr : ofTokens maxDepth formula.utf8ByteSize tokens = .error err) :
    ∃ span, FirstFault formula tokens err span := by
  rw [ofTokens] at herr
  cases hrun : tokens.foldlM (State.step maxDepth) .start with
  | error err' =>
    rw [hrun] at herr
    cases herr
    obtain ⟨k, t, s, ht, hread, herror⟩ := State.foldlM_step_eq_error hrun
    exact ⟨_, firstFault_of_step hscan ht hread herror⟩
  | ok s =>
    rw [hrun] at herr
    exact ⟨_, firstFault_of_finish hscan (State.foldlM_step_eq_ok_iff.1 hrun) herr⟩

/-- The label of an error is put on the place it points at. -/
theorem FirstFault.exists_labels_eq {formula : String} {tokens : List Token} {err : FormulaError}
    {span : Span} (h : FirstFault formula tokens err span) :
    ∃ note, err.labels = [span.label note] := by
  cases h <;> exact ⟨_, rfl⟩

end Parser

/-- A formula that has tokens but is not parsed is rejected for its first fault, and the label of
the error points at it. -/
theorem Expr.parse_error_spec {formula : String} {tokens : List Token} {err : FormulaError}
    (hscan : Token.ofFormula formula = .ok tokens) (hne : tokens ≠ [])
    (herr : Expr.parse formula = .error err) :
    ∃ span note, Parser.FirstFault formula tokens err span ∧ err.labels = [span.label note] := by
  rw [Expr.parse_eq_ofTokens hscan hne] at herr
  obtain ⟨span, hfault⟩ := Parser.exists_firstFault hscan herr
  obtain ⟨note, hlabel⟩ := hfault.exists_labels_eq
  exact ⟨span, note, hfault, hlabel⟩

/-- An operand cannot follow an operand: the last number is the first fault, although a group is
still open. The no-break space before `12` takes two bytes. -/
theorem Expr.parse_error_spec_openGroup :
    let formula := "!(0 |\u00a012 7"
    let tokens : List Token := [⟨.not, 0, "!"⟩, ⟨.opening, 1, "("⟩, ⟨.index 0, 2, "0"⟩,
      ⟨.or, 4, "|"⟩, ⟨.index 12, 7, "12"⟩, ⟨.index 7, 10, "7"⟩]
    let err : FormulaError := .unexpectedToken .closing "7" 10
    Token.ofFormula formula = .ok tokens ∧ Expr.parse formula = .error err ∧
      ∃ span note, Parser.FirstFault formula tokens err span ∧ err.labels = [span.label note] := by
  intro formula tokens err
  have hscan : Token.ofFormula formula = .ok tokens := by decide +kernel
  have herr : Expr.parse formula = .error err := by
    rw [Expr.parse, hscan]
    rfl
  exact ⟨hscan, herr, Expr.parse_error_spec hscan (List.cons_ne_nil _ _) herr⟩

end RulePaths
