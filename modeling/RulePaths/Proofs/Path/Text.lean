import RulePaths.Formula.Term
import RulePaths.Path.Tokens
import RulePaths.Text.Reader
import RulePaths.Proofs.Formula.Terms

/-!
# The text of a path is read back

The text of a term tells the term: its maximal runs of digits are the attributes, and `!` right
before a run negates it. The tokens of the text are the attributes in the order of the literals.

## Main definitions

- `Path.literals` — the literals that a text is read as
- `Path.eval` — whether a text read like this is true under an assignment

## Main results

- `Path.literals_render` — reading the text of a term gives the term
- `Path.attributeTokens_render` — the tokens of the text are the attributes of the term
-/

namespace RulePaths

namespace Path

/-! ### Reading a text -/

/-- The literal of a run of digits, if there are any digits. -/
def literalOf (negated : Bool) (digits : List Char) : List Literal :=
  if digits = [] then [] else [⟨Text.decimal digits, negated⟩]

/-- Reads on after some digits of a run. `negated` tells whether `!` stands right before it. -/
def literalsFrom (negated : Bool) (digits : List Char) : List Char → List Literal
  | [] => literalOf negated digits
  | c :: cs =>
    if c.isDigit then literalsFrom negated (digits ++ [c]) cs
    else literalOf negated digits ++ literalsFrom (c == '!') [] cs

/-- A text read as a conjunction: its literals are the maximal runs of digits, negated if `!`
stands right before them. -/
def literals (path : String) : Term :=
  literalsFrom false [] path.toList

/-- Whether a path is true under an assignment. -/
def eval (value : Assignment) (path : String) : Bool :=
  (literals path).eval value

example : literals "0&12!3" = [⟨0, false⟩, ⟨12, false⟩, ⟨3, true⟩] := by decide

/-! ### The text of a term, character by character -/

/-- The digits of the attribute of a literal. -/
def digits (l : Literal) : List Char :=
  Nat.toDigits 10 l.index

/-- What stands before a literal that follows another one. -/
def separator (l : Literal) : Char :=
  if l.negated then '!' else '&'

theorem isDigit_of_mem_digits {l : Literal} {c : Char} (h : c ∈ digits l) : c.isDigit = true :=
  Nat.isDigit_of_mem_toDigits (by decide) (by decide) h

theorem digits_ne_nil (l : Literal) : digits l ≠ [] :=
  Nat.toDigits_ne_nil

theorem ofList_digits (l : Literal) : String.ofList (digits l) = l.index.repr :=
  Nat.repr_eq_ofList_toDigits.symm

theorem decimal_digits (l : Literal) : Text.decimal (digits l) = l.index := by
  have := Nat.ofDigitChars_ten_toDigits (n := l.index)
  rwa [Nat.ofDigitChars_eq_foldl] at this

theorem index_eq_of_repr_eq {k l : Literal} (h : k.index.repr = l.index.repr) :
    k.index = l.index := by
  rw [← ofList_digits, ← ofList_digits, String.ofList_inj] at h
  rw [← decimal_digits, h, decimal_digits]

theorem isDigit_separator (l : Literal) : (separator l).isDigit = false := by
  unfold separator
  split <;> rfl

theorem isSeparator_separator (l : Literal) : isSeparator (separator l) = true := by
  unfold separator
  split <;> rfl

theorem isSeparator_of_isDigit {c : Char} (h : c.isDigit = true) : isSeparator c = false := by
  cases hc : isSeparator c with
  | false => rfl
  | true =>
    simp only [isSeparator, Bool.or_eq_true, beq_iff_eq] at hc
    rcases hc with rfl | rfl <;> cases h

/-- The characters of the literals that follow the first one. -/
def tailChars (ls : Term) : List Char :=
  ls.flatMap fun l => separator l :: digits l

theorem toList_text (l : Literal) : l.text.toList = separator l :: digits l := by
  unfold Literal.text separator digits
  rw [String.toList_append, Nat.repr_eq_ofList_toDigits, String.toList_ofList]
  cases l.negated <;> rfl

theorem toList_leadText (l : Literal) :
    l.leadText.toList = (if l.negated then ['!'] else []) ++ digits l := by
  unfold Literal.leadText digits
  rw [String.toList_append, Nat.repr_eq_ofList_toDigits, String.toList_ofList]
  cases l.negated <;> rfl

theorem toList_foldl_text (ls : Term) (start : String) :
    (ls.foldl (fun text l => text ++ l.text) start).toList = start.toList ++ tailChars ls := by
  induction ls generalizing start with
  | nil => simp [tailChars]
  | cons l ls ih => simp [ih, tailChars, toList_text, String.toList_append]

theorem toList_render_cons (l : Literal) (ls : Term) :
    (Term.render (l :: ls)).toList =
      (if l.negated then ['!'] else []) ++ (digits l ++ tailChars ls) := by
  rw [Term.render, toList_foldl_text, toList_leadText, List.append_assoc]

/-! ### The literals of the text of a term -/

theorem literalsFrom_append {ds : List Char} (hds : ∀ c ∈ ds, c.isDigit = true) (negated : Bool)
    (before rest : List Char) :
    literalsFrom negated before (ds ++ rest) = literalsFrom negated (before ++ ds) rest := by
  induction ds generalizing before with
  | nil => simp
  | cons d ds ih =>
    have hd := hds d List.mem_cons_self
    rw [List.cons_append, literalsFrom, if_pos hd,
      ih (fun c hc => hds c (List.mem_cons_of_mem d hc)), List.append_assoc, List.singleton_append]

theorem literalOf_digits (l : Literal) : literalOf l.negated (digits l) = [l] := by
  rw [literalOf, if_neg (digits_ne_nil l), decimal_digits]

theorem literalsFrom_tailChars (negated : Bool) (before : List Char) (ls : Term) :
    literalsFrom negated before (tailChars ls) = literalOf negated before ++ ls := by
  induction ls generalizing negated before with
  | nil => simp [tailChars, literalsFrom]
  | cons l ls ih =>
    have hseparator : (separator l == '!') = l.negated := by
      unfold separator
      cases l.negated <;> rfl
    rw [tailChars, List.flatMap_cons, List.cons_append, literalsFrom, isDigit_separator,
      if_neg Bool.false_ne_true, hseparator,
      literalsFrom_append fun c hc => isDigit_of_mem_digits hc]
    show _ ++ literalsFrom l.negated (digits l) (tailChars ls) = _
    rw [ih, literalOf_digits, List.singleton_append]

/-- Reading the text of a term gives the term. -/
theorem literals_render (t : Term) : literals t.render = t := by
  cases t with
  | nil => rfl
  | cons l ls =>
    have hread : literalsFrom l.negated [] (digits l ++ tailChars ls) = l :: ls := by
      rw [literalsFrom_append fun c hc => isDigit_of_mem_digits hc, List.nil_append,
        literalsFrom_tailChars, literalOf_digits, List.singleton_append]
    rw [literals, toList_render_cons]
    cases hneg : l.negated with
    | false => rwa [hneg] at hread
    | true => rwa [hneg] at hread

theorem eval_render (value : Assignment) (t : Term) : eval value t.render = t.eval value := by
  rw [eval, literals_render]

/-- Terms with the same text are equal. -/
theorem render_injective : Function.Injective Term.render :=
  Function.LeftInverse.injective literals_render

/-! ### The tokens of the text of a term -/

theorem splitOnP_tailChars {ds : List Char} (hds : ∀ c ∈ ds, isSeparator c = false) (ls : Term) :
    (ds ++ tailChars ls).splitOnP isSeparator = ds :: ls.map digits := by
  induction ls generalizing ds with
  | nil => simpa [tailChars] using List.splitOnP_eq_singleton hds
  | cons l ls ih =>
    rw [tailChars, List.flatMap_cons, List.cons_append,
      List.splitOnP_append_cons_of_forall_mem hds _ (isSeparator_separator l)]
    show ds :: (digits l ++ tailChars ls).splitOnP isSeparator = _
    rw [ih fun c hc => isSeparator_of_isDigit (isDigit_of_mem_digits hc), List.map_cons]

theorem pieces_render (t : Term) : pieces t.render.toList = t.map digits := by
  cases t with
  | nil => rfl
  | cons l ls =>
    have hds : ∀ c ∈ digits l, isSeparator c = false :=
      fun c hc => isSeparator_of_isDigit (isDigit_of_mem_digits hc)
    have hpieces : ((digits l ++ tailChars ls).splitOnP isSeparator).filter
        (fun piece => !piece.isEmpty) = (l :: ls).map digits := by
      rw [splitOnP_tailChars hds, ← List.map_cons, List.filter_eq_self]
      intro piece hpiece
      obtain ⟨k, _, rfl⟩ := List.mem_map.1 hpiece
      simpa using digits_ne_nil k
    rw [toList_render_cons, pieces]
    cases l.negated with
    | false => exact hpieces
    | true =>
      -- nothing stands before the first `!`
      show ((('!' :: (digits l ++ tailChars ls)).splitOnP isSeparator).filter _) = _
      have hseparator : isSeparator '!' = true := by decide
      rw [List.splitOnP_cons_eq_if_modifyHead, if_pos hseparator, List.filter_cons,
        if_neg (by simp), hpieces]

theorem firstOccurrences_of_nodup {ss seen : List String} (h : (seen ++ ss).Nodup) :
    firstOccurrences seen ss = ss := by
  induction ss generalizing seen with
  | nil => rfl
  | cons s ss ih =>
    have hs : s ∉ seen := by
      intro hmem
      exact (List.nodup_append.1 h).2.2 s hmem s List.mem_cons_self rfl
    rw [firstOccurrences, if_neg (by simpa using hs), ih]
    refine (List.Perm.nodup_iff ?_).1 h
    exact List.perm_middle

/-- The tokens of the text of a term are its attributes in the order of the literals. -/
theorem attributeTokens_render {t : Term} (h : t.Ascending) :
    attributeTokens t.render = t.map fun l => l.index.repr := by
  have hpieces : (pieces t.render.toList).map String.ofList = t.map fun l => l.index.repr := by
    rw [pieces_render, List.map_map]
    exact List.map_congr_left fun l _ => ofList_digits l
  rw [attributeTokens, hpieces, firstOccurrences_of_nodup]
  rw [List.nil_append, List.Nodup, List.pairwise_map]
  exact h.imp fun hlt heq => Nat.ne_of_lt hlt (index_eq_of_repr_eq heq)

end Path

end RulePaths
