import RulePaths.Proofs.Formula.Pieces
import RulePaths.Proofs.Formula.SyntaxErrors

/-!
# Blank characters between tokens

The texts of the tokens decide how a formula is read; what lies between them does not. A text that
spells out the same words has the same symbols, and the parser sees nothing of a token but its
symbol, except to report it. So the parser goes through the same states on both, and where it stops
on one it stops on the other.

## Main definitions

- `Spaced` — a text that spells out words, with blank characters around them
- `Parser.SameFault` — errors of one kind at one place of two formulas

## Main results

- `Token.spaced_iff` — the texts that have the words of a formula for tokens
- `Expr.parse_scan_spec` — what the scan says of a formula, and the parser of all its spacings
-/

namespace RulePaths

/-- The text spells out the words in their order, with blank characters around them. Where a word
ends with a digit and the next one begins with one, something has to be between them: the digits
would make up one word else. -/
inductive Spaced : List String → List Char → Prop where
  | nil : Spaced [] []
  | blank {words : List String} {c : Char} {text : List Char} :
      Blank.isBlank c = true → Spaced words text → Spaced words (c :: text)
  | word {word : String} {words : List String} {text : List Char} :
      Token.Apart word.toList text → Spaced words text →
        Spaced (word :: words) (word.toList ++ text)

theorem Spaced.word_ofList {chars : List Char} {words : List String} {text : List Char}
    (hapart : Token.Apart chars text) (h : Spaced words text) :
    Spaced (String.ofList chars :: words) (chars ++ text) := by
  rw [← String.toList_ofList (l := chars)] at hapart
  have hspaced := Spaced.word hapart h
  rwa [String.toList_ofList] at hspaced

namespace Token

/-! ### Texts with the same words -/

/-- A text spells out the words of its own tokens. -/
theorem Scanned.spaced {offset : Nat} {text : List Char} {ts : List Token}
    (h : Scanned offset text ts) : Spaced (ts.map Token.text) text := by
  induction h with
  | nil => exact .nil
  | blank hblank _ ih => exact .blank hblank ih
  | @operator offset c a rest ts _ hop _ ih =>
    rw [List.map_cons, Char.toString, String.singleton_eq_ofList]
    have hpiece : IsPiece [] rest [c] := .character (isDigit_of_operator? hop)
    exact .word_ofList hpiece.apart ih
  | @index offset c digits rest ts _ _ hdigits hrest _ _ ih =>
    exact .word_ofList (fun _ _ _ => hrest) ih

/-- A text that spells out words that are tokens has these for tokens. -/
theorem exists_scanned_of_spaced {words : List String} {text : List Char} (h : Spaced words text)
    (hwords : ∀ w ∈ words, ∃ a, Means w.toList a) (offset : Nat) :
    ∃ us, Scanned offset text us ∧ us.map Token.text = words := by
  induction h generalizing offset with
  | nil => exact ⟨[], .nil, rfl⟩
  | @blank words c text hblank _ ih =>
    obtain ⟨us, hus, htexts⟩ := ih hwords (offset + c.utf8Size)
    exact ⟨us, .blank hblank hus, htexts⟩
  | @word word words text hapart _ ih =>
    obtain ⟨⟨a, hmeans⟩, hwords⟩ := List.forall_mem_cons.1 hwords
    obtain ⟨us, hus, rfl⟩ := ih hwords (offset + String.utf8Len word.toList)
    have hword := String.ofList_toList (s := word)
    generalize word.toList = chars at *
    subst hword
    cases hmeans with
    | @operator c a hop =>
      rw [← String.singleton_eq_ofList]
      exact ⟨_, .operator (isBlank_of_operator? hop) hop (by simpa using hus), rfl⟩
    | @index c digits hdigits hbound =>
      have hc := hdigits c List.mem_cons_self
      have hlast := hdigits _ (List.getLast_mem (List.cons_ne_nil c digits))
      rw [utf8Len_of_digits hdigits] at hus
      exact ⟨_, .index (isBlank_of_isDigit hc) (operator?_of_isDigit hc) hdigits
        (hapart _ (List.getLast?_eq_some_getLast _) hlast) hbound hus, rfl⟩

/-- The words decide what the tokens stand for. -/
theorem map_symbol_eq {ts us : List Token} (hts : ∀ t ∈ ts, Means t.text.toList t.symbol)
    (hus : ∀ u ∈ us, Means u.text.toList u.symbol)
    (h : us.map Token.text = ts.map Token.text) :
    us.map Token.symbol = ts.map Token.symbol := by
  induction us generalizing ts with
  | nil =>
    obtain rfl := List.map_eq_nil_iff.1 h.symm
    rfl
  | cons u us ih =>
    obtain ⟨t, ts, rfl, htext, htexts⟩ := List.map_eq_cons_iff.1 h.symm
    obtain ⟨ht, hts⟩ := List.forall_mem_cons.1 hts
    obtain ⟨hu, hus⟩ := List.forall_mem_cons.1 hus
    rw [htext] at ht
    rw [List.map_cons, List.map_cons, ih hts hus htexts.symm, ht.eq hu]

theorem tokenizes_ofFormula {formula : String} {ts : List Token} (h : ofFormula formula = .ok ts) :
    Tokenizes [] formula.toList ts :=
  (scan_eq_ok_iff.1 h).tokenizes rfl apart_nil

/-- The texts that spell out the words of a formula are those with the same tokens, but for where
they start. -/
theorem spaced_iff {formula formula' : String} {ts : List Token}
    (h : ofFormula formula = .ok ts) :
    Spaced (ts.map Token.text) formula'.toList ↔
      ∃ us, ofFormula formula' = .ok us ∧ us.map Token.text = ts.map Token.text := by
  constructor
  · intro hspaced
    have hmeans : ∀ w ∈ ts.map Token.text, ∃ a, Means w.toList a :=
      List.forall_mem_map.2 fun t ht => ⟨_, (tokenizes_ofFormula h).means t ht⟩
    obtain ⟨us, hus, htexts⟩ := exists_scanned_of_spaced hspaced hmeans 0
    exact ⟨us, scan_eq_ok_iff.2 hus, htexts⟩
  · rintro ⟨us, hus, htexts⟩
    rw [← htexts]
    exact (scan_eq_ok_iff.1 hus).spaced

end Token

namespace Parser

/-! ### The parser on the same symbols -/

/-- Two outcomes that are the same, or are errors that are related. -/
inductive Alike {α : Type} (R : FormulaError → FormulaError → Prop) :
    Except FormulaError α → Except FormulaError α → Prop where
  | ok (a : α) : Alike R (.ok a) (.ok a)
  | error {err err' : FormulaError} : R err err' → Alike R (.error err) (.error err')

/-- Errors of one kind that report two tokens. -/
inductive SameFaultAt (t u : Token) : FormulaError → FormulaError → Prop where
  | unexpectedToken (expected : Expected) :
      SameFaultAt t u (.unexpectedToken expected t.text t.offset)
        (.unexpectedToken expected u.text u.offset)
  | tooDeep (limit : Nat) : SameFaultAt t u (.tooDeep limit t.span) (.tooDeep limit u.span)

/-- Errors of one kind that report tokens with one number. -/
def SameFaultIn (ts us : List Token) (err err' : FormulaError) : Prop :=
  ∃ (k : Nat) (t u : Token), ts[k]? = some t ∧ us[k]? = some u ∧ SameFaultAt t u err err'

/-- Errors of one kind at one place of two formulas: at tokens with one number, or at the ends. -/
inductive SameFault (formula formula' : String) (ts us : List Token) :
    FormulaError → FormulaError → Prop where
  | empty : SameFault formula formula' ts us .empty .empty
  | token {err err' : FormulaError} :
      SameFaultIn ts us err err' → SameFault formula formula' ts us err err'
  | unexpectedEnd (expected : Expected) :
      SameFault formula formula' ts us (.unexpectedEnd expected formula.utf8ByteSize)
        (.unexpectedEnd expected formula'.utf8ByteSize)

theorem Alike.bind {α β : Type} {R : FormulaError → FormulaError → Prop}
    {x y : Except FormulaError α} {f g : α → Except FormulaError β} (h : Alike R x y)
    (hf : ∀ a, Alike R (f a) (g a)) : Alike R (x >>= f) (y >>= g) := by
  cases h with
  | ok a => exact hf a
  | error herr => exact .error herr

theorem Alike.mono {α : Type} {R S : FormulaError → FormulaError → Prop}
    {x y : Except FormulaError α} (h : Alike R x y) (hRS : ∀ err err', R err err' → S err err') :
    Alike S x y := by
  cases h with
  | ok a => exact .ok a
  | error herr => exact .error (hRS _ _ herr)

namespace State

/-- A step looks at the symbol only. -/
theorem step_alike (limit : Nat) (s : State) {t u : Token} (h : u.symbol = t.symbol) :
    Alike (SameFaultAt t u) (s.step limit t) (s.step limit u) := by
  cases s with
  | operand outer level =>
    simp only [step, h]
    cases t.symbol with
    | index a => exact .ok _
    | not | opening =>
      dsimp only
      split
      · exact .error (.tooDeep limit)
      · exact .ok _
    | and | or | closing => exact .error (.unexpectedToken _)
  | operator outer chain =>
    simp only [step, h]
    cases t.symbol with
    | and | or => exact .ok _
    | closing =>
      cases outer with
      | nil => exact .error (.unexpectedToken _)
      | cons level outer => exact .ok _
    | index | not | opening => exact .error (.unexpectedToken _)

/-- So does a run, up to the token that it reports. -/
theorem foldlM_step_alike (limit : Nat) (s : State) {ts us : List Token}
    (h : us.map Token.symbol = ts.map Token.symbol) :
    Alike (SameFaultIn ts us) (ts.foldlM (step limit) s) (us.foldlM (step limit) s) := by
  induction ts generalizing us s with
  | nil =>
    obtain rfl := List.map_eq_nil_iff.1 h
    exact .ok s
  | cons t ts ih =>
    obtain ⟨u, us, rfl, hsymbol, hsymbols⟩ := List.map_eq_cons_iff.1 h
    rw [List.foldlM_cons, List.foldlM_cons]
    have hstep : Alike (SameFaultIn (t :: ts) (u :: us)) (s.step limit t) (s.step limit u) :=
      (step_alike limit s hsymbol).mono fun _ _ herr => ⟨0, t, u, rfl, rfl, herr⟩
    refine hstep.bind fun s' => (ih s' hsymbols).mono ?_
    rintro err err' ⟨k, t', u', ht', hu', herr⟩
    exact ⟨k + 1, t', u', ht', hu', herr⟩

theorem finish_alike {formula formula' : String} {ts us : List Token} (s : State) :
    Alike (SameFault formula formula' ts us) (s.finish formula.utf8ByteSize)
      (s.finish formula'.utf8ByteSize) := by
  cases s with
  | operand outer level => exact .error (.unexpectedEnd _)
  | operator outer chain =>
    cases outer with
    | nil => exact .ok _
    | cons level outer => exact .error (.unexpectedEnd _)

end State

end Parser

/-- Formulas with the same symbols stand for one expression or are rejected alike. -/
theorem Expr.parse_alike {formula formula' : String} {ts us : List Token}
    (hts : Token.ofFormula formula = .ok ts) (hus : Token.ofFormula formula' = .ok us)
    (h : us.map Token.symbol = ts.map Token.symbol) :
    Parser.Alike (Parser.SameFault formula formula' ts us) (Expr.parse formula)
      (Expr.parse formula') := by
  by_cases hne : ts = []
  · subst hne
    obtain rfl := List.map_eq_nil_iff.1 h
    rw [Expr.parse, Expr.parse, hts, hus]
    exact .error .empty
  · have hne' : us ≠ [] := by
      rintro rfl
      exact hne (List.map_eq_nil_iff.1 h.symm)
    rw [Expr.parse_eq_ofTokens hts hne, Expr.parse_eq_ofTokens hus hne', Parser.ofTokens,
      Parser.ofTokens]
    have hrun := Parser.State.foldlM_step_alike Parser.maxDepth .start h
    exact (hrun.mono fun _ _ => .token).bind Parser.State.finish_alike

/-! ### How a formula is read -/

/-- What the tokens of a formula say of it, and of the other texts that spell out their words. -/
structure ReadBy (formula : String) (ts : List Token) : Prop where
  tokenizes : Token.Tokenizes [] formula.toList ts
  sound : ∀ err span, ¬ Token.Fault [] formula.toList err span
  spaced : Spaced (ts.map Token.text) formula.toList
  respaced_iff : ∀ formula', Spaced (ts.map Token.text) formula'.toList ↔
    ∃ us, Token.ofFormula formula' = .ok us ∧ us.map Token.text = ts.map Token.text ∧
      us.map Token.symbol = ts.map Token.symbol ∧
        Parser.Alike (Parser.SameFault formula formula' ts us) (Expr.parse formula)
          (Expr.parse formula')

theorem readBy_of_ofFormula {formula : String} {ts : List Token}
    (h : Token.ofFormula formula = .ok ts) : ReadBy formula ts where
  tokenizes := Token.tokenizes_ofFormula h
  sound := (Token.scan_eq_ok_iff.1 h).not_fault rfl Token.apart_nil
  spaced := (Token.scan_eq_ok_iff.1 h).spaced
  respaced_iff formula' := by
    rw [Token.spaced_iff h]
    constructor
    · rintro ⟨us, hus, htexts⟩
      have hsymbols := Token.map_symbol_eq (Token.tokenizes_ofFormula h).means
        (Token.tokenizes_ofFormula hus).means htexts
      exact ⟨us, hus, htexts, hsymbols, Expr.parse_alike h hus hsymbols⟩
    · rintro ⟨us, hus, htexts, -⟩
      exact ⟨us, hus, htexts⟩

/-- A formula has tokens, or it is rejected for its leftmost flaw, whatever the parser would have
said of the rest. -/
theorem Expr.parse_scan_spec (formula : String) :
    (∃ ts, Token.ofFormula formula = .ok ts ∧ ReadBy formula ts) ∨
      ∃ err span note, Token.ofFormula formula = .error err ∧ Expr.parse formula = .error err ∧
        Token.FirstFault [] formula.toList err span ∧ err.labels = [span.label note] := by
  cases h : Token.ofFormula formula with
  | ok ts => exact .inl ⟨ts, rfl, readBy_of_ofFormula h⟩
  | error err =>
    obtain ⟨span, hfirst⟩ := Token.exists_firstFault h rfl Token.apart_nil
    obtain ⟨note, hlabel⟩ := hfirst.fault.exists_labels_eq
    refine .inr ⟨err, span, note, rfl, ?_, hfirst, hlabel⟩
    rw [Expr.parse, h]
    rfl

/-- The digit of another script is no digit: it is reported, at its byte and with its three bytes,
although the formula goes wrong for the parser before it. -/
example :
    let err : FormulaError := .strayCharacter '\u0967' 5
    Expr.parse "0\u00a01 \u0967 4294967296" = .error err ∧
      err.labels = [Span.label ⟨5, 3⟩ "not part of the formula grammar"] := by
  cbv

end RulePaths
