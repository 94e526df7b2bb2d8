import RulePaths.Proofs.Formula.Scanning

/-!
# Pieces of a formula

Every text is cut into pieces in one way: a character that is no digit is a piece of its own, and
digits go together as far as they reach. What follows on a piece has the same pieces whether it is
read alone or after it, so the scan can be compared with the pieces one at a time. A piece is blank,
or it is a token, or it is a flaw. Without flaws the scan gives the tokens, and nothing but blank
characters lies outside them; else it reports the leftmost flaw.

## Main definitions

- `Token.PieceAt` — where a text has a piece
- `Token.Tokenizes` — what the tokens of a text are
- `Token.FirstFault` — the leftmost piece that no text with tokens has

## Main results

- `Token.IsPiece.pieceAt_append_iff` — the pieces of a text are its first one and those of the rest
- `Token.Scanned.tokenizes`, `Token.Scanned.not_fault` — what the scan gives
- `Token.exists_firstFault` — what the scan reports
-/

namespace RulePaths

/-- The span takes in the byte. -/
def Span.Contains (s : Span) (offset : Nat) : Prop :=
  s.offset ≤ offset ∧ offset < s.offset + s.length

namespace Token

/-! ### Pieces -/

/-- A stretch of a text, between what precedes and what follows it: a single character that is no
digit, or digits that neither side goes on with. -/
inductive IsPiece (before after : List Char) : List Char → Prop where
  | character {c : Char} : c.isDigit = false → IsPiece before after [c]
  | run {c : Char} {digits : List Char} :
      (∀ d ∈ c :: digits, d.isDigit = true) → (∀ d ∈ before.getLast?, d.isDigit = false) →
        (∀ d ∈ after.head?, d.isDigit = false) → IsPiece before after (c :: digits)

/-- A text has a piece that starts at a byte, where the text follows on `before`. -/
def PieceAt (before text piece : List Char) (offset : Nat) : Prop :=
  ∃ between after, text = between ++ piece ++ after ∧
    offset = String.utf8Len (before ++ between) ∧ IsPiece (before ++ between) after piece

/-- No run of digits goes on from one text to the other. -/
def Apart (before text : List Char) : Prop :=
  ∀ c ∈ before.getLast?, c.isDigit = true → ∀ d ∈ text.head?, d.isDigit = false

theorem apart_nil {text : List Char} : Apart [] text :=
  nofun

theorem PieceAt.le_offset {before text piece : List Char} {offset : Nat}
    (h : PieceAt before text piece offset) : String.utf8Len before ≤ offset := by
  obtain ⟨between, _, _, rfl, _⟩ := h
  rw [String.utf8Len_append]
  exact Nat.le_add_right _ _

/-- What starts with a character that is no digit is no run of digits. -/
theorem not_digits {c : Char} {digits : List Char} (hc : c.isDigit = false) :
    ¬ ∀ d ∈ c :: digits, d.isDigit = true :=
  fun hdigits => Bool.false_ne_true (hc.symm.trans (hdigits c List.mem_cons_self))

namespace IsPiece

variable {before rest piece : List Char}

theorem ne_nil (h : IsPiece before rest piece) : piece ≠ [] := by
  cases h <;> exact List.cons_ne_nil _ _

theorem apart (h : IsPiece before rest piece) : Apart (before ++ piece) rest := by
  intro d hd hdigit
  cases h with
  | character hc =>
    rw [List.getLast?_concat] at hd
    obtain rfl := Option.some_inj.1 hd
    rw [hc] at hdigit
    cases hdigit
  | run _ _ hrest => exact hrest

/-- What starts inside a run of digits is a piece only if it is the whole run. -/
theorem eq_of_digits {between inside other after : List Char}
    (hdigits : ∀ d ∈ between ++ inside, d.isDigit = true) (hne : inside ≠ [])
    (hrest : ∀ d ∈ rest.head?, d.isDigit = false)
    (h : IsPiece (before ++ between) after other) (hafter : other ++ after = inside ++ rest) :
    between = [] ∧ other = inside := by
  obtain ⟨d, inside, rfl⟩ := List.exists_cons_of_ne_nil hne
  have hd : d.isDigit = true := hdigits d (by simp)
  cases h with
  | @character c hc =>
    obtain rfl : c = d := List.head_eq_of_cons_eq hafter
    rw [hd] at hc
    cases hc
  | @run c run hrun hbefore hstop =>
    constructor
    · -- the last character of what lies between would be a digit before the run
      refine List.eq_nil_iff_forall_not_mem.2 fun e he => ?_
      have hne := List.ne_nil_of_mem he
      have hlast : (before ++ between).getLast? = some (between.getLast hne) := by
        rw [List.getLast?_append, List.getLast?_eq_some_getLast hne, Option.some_or]
      have hdigit := hdigits _ (List.mem_append_left _ (List.getLast_mem hne))
      rw [hbefore _ hlast] at hdigit
      cases hdigit
    · have hinside : ∀ e ∈ d :: inside, e.isDigit = true :=
        fun e he => hdigits e (List.mem_append_right _ he)
      rw [← (takeWhile_dropWhile_append hrun hstop).1, hafter,
        (takeWhile_dropWhile_append hinside hrest).1]

/-- What starts inside a piece is a piece only if it is the same. -/
theorem eq_of_inside {between inside other after : List Char}
    (h : IsPiece before rest (between ++ inside)) (hne : inside ≠ [])
    (hother : IsPiece (before ++ between) after other) (hafter : other ++ after = inside ++ rest) :
    between = [] ∧ other = inside := by
  generalize hpiece : between ++ inside = piece at h
  cases h with
  | @character c hc =>
    obtain ⟨rfl, rfl⟩ | ⟨rfl, rfl⟩ := List.append_eq_singleton_iff.1 hpiece
    · refine ⟨rfl, ?_⟩
      cases hother with
      | character => rw [List.head_eq_of_cons_eq hafter]
      | run hrun =>
        obtain rfl := List.head_eq_of_cons_eq hafter
        exact absurd hrun (not_digits hc)
    · exact absurd rfl hne
  | run hrun _ hrest => exact eq_of_digits (hpiece ▸ hrun) hne hrest hother hafter

/-- The pieces of a text are the first one and those of the rest. -/
theorem pieceAt_append_iff (h : IsPiece before rest piece) {other : List Char} {offset : Nat} :
    PieceAt before (piece ++ rest) other offset ↔
      other = piece ∧ offset = String.utf8Len before ∨
        PieceAt (before ++ piece) rest other offset := by
  constructor
  · rintro ⟨between, after, htext, rfl, hother⟩
    rw [List.append_assoc, List.append_eq_append_iff] at htext
    rcases htext with ⟨between, rfl, hrest⟩ | ⟨inside, rfl, hafter⟩
    · refine .inr ⟨between, after, by rw [hrest, List.append_assoc], by rw [List.append_assoc], ?_⟩
      rwa [List.append_assoc]
    · by_cases hne : inside = []
      · subst hne
        rw [List.append_nil]
        exact .inr ⟨[], after, hafter.symm, by rw [List.append_nil], by rwa [List.append_nil]⟩
      · obtain ⟨rfl, rfl⟩ := h.eq_of_inside hne hother hafter
        exact .inl ⟨rfl, by rw [List.append_nil]⟩
  · rintro (⟨rfl, rfl⟩ | ⟨between, after, rfl, rfl, hother⟩)
    · exact ⟨[], rest, rfl, by rw [List.append_nil], by rwa [List.append_nil]⟩
    · refine ⟨piece ++ between, after, by simp, by rw [List.append_assoc], ?_⟩
      rwa [← List.append_assoc]

end IsPiece

/-! ### What pieces are -/

/-- What a piece stands for as a token. -/
inductive Means : List Char → Symbol → Prop where
  | operator {c : Char} {a : Symbol} : operator? c = some a → Means [c] a
  | index {c : Char} {digits : List Char} :
      (∀ d ∈ c :: digits, d.isDigit = true) → Text.decimal (c :: digits) < 2 ^ 32 →
        Means (c :: digits) (.index (Text.decimal (c :: digits)))

/-- What is wrong with a piece that no text with tokens has. -/
inductive Flawed (offset : Nat) : List Char → FormulaError → Prop where
  | strayCharacter {c : Char} :
      Blank.isBlank c = false → operator? c = none → c.isDigit = false →
        Flawed offset [c] (.strayCharacter c offset)
  | indexTooLarge {c : Char} {digits : List Char} :
      (∀ d ∈ c :: digits, d.isDigit = true) → 2 ^ 32 ≤ Text.decimal (c :: digits) →
        Flawed offset (c :: digits) (.indexTooLarge (String.ofList (c :: digits)) offset)

theorem operator?_cases {c : Char} {a : Symbol} (h : operator? c = some a) :
    c = '!' ∨ c = '&' ∨ c = '|' ∨ c = '(' ∨ c = ')' := by
  unfold operator? at h
  split at h
  case h_6 => cases h
  all_goals simp

theorem isDigit_of_operator? {c : Char} {a : Symbol} (h : operator? c = some a) :
    c.isDigit = false := by
  rcases operator?_cases h with rfl | rfl | rfl | rfl | rfl <;> rfl

theorem isBlank_of_operator? {c : Char} {a : Symbol} (h : operator? c = some a) :
    Blank.isBlank c = false := by
  rcases operator?_cases h with rfl | rfl | rfl | rfl | rfl <;> rfl

theorem isDigit_of_isBlank {c : Char} (h : Blank.isBlank c = true) : c.isDigit = false := by
  simp only [Blank.isBlank, Blank.ranges, List.any_cons, List.any_nil, Bool.or_false,
    Bool.or_eq_true, Bool.and_eq_true, decide_eq_true_eq] at h
  rw [Bool.eq_false_iff]
  intro hdigit
  rw [Char.isDigit_iff_toNat] at hdigit
  change 48 ≤ c.toNat ∧ c.toNat ≤ 57 at hdigit
  omega

theorem isBlank_of_isDigit {c : Char} (h : c.isDigit = true) : Blank.isBlank c = false := by
  rw [Bool.eq_false_iff]
  intro hblank
  rw [isDigit_of_isBlank hblank] at h
  cases h

theorem operator?_of_isDigit {c : Char} (h : c.isDigit = true) : operator? c = none := by
  cases hop : operator? c with
  | none => rfl
  | some a =>
    rw [isDigit_of_operator? hop] at h
    cases h

theorem Means.eq {piece : List Char} {a b : Symbol} (ha : Means piece a) (hb : Means piece b) :
    a = b := by
  cases ha with
  | operator hop =>
    cases hb with
    | operator hop' => exact Option.some_inj.1 (hop.symm.trans hop')
    | index hdigits => exact absurd hdigits (not_digits (isDigit_of_operator? hop))
  | index hdigits =>
    cases hb with
    | operator hop => exact absurd hdigits (not_digits (isDigit_of_operator? hop))
    | index => rfl

theorem Means.not_flawed {piece : List Char} {a : Symbol} (h : Means piece a) (offset : Nat)
    (err : FormulaError) : ¬ Flawed offset piece err := by
  intro hflawed
  cases h with
  | operator hop =>
    cases hflawed with
    | strayCharacter _ hnone =>
      rw [hop] at hnone
      cases hnone
    | indexTooLarge hdigits => exact not_digits (isDigit_of_operator? hop) hdigits
  | index hdigits hbound =>
    cases hflawed with
    | strayCharacter _ _ hdigit => exact not_digits hdigit hdigits
    | indexTooLarge _ hlarge => exact Nat.not_le.2 hbound hlarge

theorem not_flawed_of_isBlank {c : Char} (h : Blank.isBlank c = true) (offset : Nat)
    (err : FormulaError) : ¬ Flawed offset [c] err := by
  intro hflawed
  cases hflawed with
  | strayCharacter hblank =>
    rw [h] at hblank
    cases hblank
  | indexTooLarge hdigits => exact not_digits (isDigit_of_isBlank h) hdigits

theorem Flawed.eq {piece : List Char} {offset : Nat} {err err' : FormulaError}
    (h : Flawed offset piece err) (h' : Flawed offset piece err') : err' = err := by
  cases h with
  | strayCharacter _ _ hdigit =>
    cases h' with
    | strayCharacter => rfl
    | indexTooLarge hdigits => exact absurd hdigits (not_digits hdigit)
  | indexTooLarge hdigits =>
    cases h' with
    | strayCharacter _ _ hdigit => exact absurd hdigits (not_digits hdigit)
    | indexTooLarge => rfl

/-- A flaw of the text that follows on `before`: the error for it, and its place. -/
def Fault (before text : List Char) (err : FormulaError) (span : Span) : Prop :=
  ∃ piece, PieceAt before text piece span.offset ∧ span.length = String.utf8Len piece ∧
    Flawed span.offset piece err

/-- The label of the error is put on the flawed piece. -/
theorem Fault.exists_labels_eq {before text : List Char} {err : FormulaError} {span : Span}
    (h : Fault before text err span) : ∃ note, err.labels = [span.label note] := by
  obtain ⟨offset, length⟩ := span
  obtain ⟨piece, -, rfl, hflawed⟩ := h
  cases hflawed with
  | strayCharacter =>
    rw [String.utf8Len_cons, String.utf8Len_nil, Nat.zero_add]
    exact ⟨_, rfl⟩
  | indexTooLarge =>
    rw [← String.utf8ByteSize_ofList]
    exact ⟨_, rfl⟩

theorem not_fault_nil {before : List Char} {err : FormulaError} {span : Span} :
    ¬ Fault before [] err span := by
  rintro ⟨piece, ⟨between, after, htext, _, hpiece⟩, _⟩
  obtain ⟨hnil, -⟩ := List.append_eq_nil_iff.1 htext.symm
  exact hpiece.ne_nil (List.append_eq_nil_iff.1 hnil).2

theorem IsPiece.fault_append_iff {before rest piece : List Char} (h : IsPiece before rest piece)
    {err : FormulaError} {span : Span} :
    Fault before (piece ++ rest) err span ↔
      span = ⟨String.utf8Len before, String.utf8Len piece⟩ ∧
          Flawed (String.utf8Len before) piece err ∨
        Fault (before ++ piece) rest err span := by
  obtain ⟨offset, length⟩ := span
  constructor
  · rintro ⟨other, hother, rfl, hflawed⟩
    rcases h.pieceAt_append_iff.1 hother with ⟨rfl, rfl⟩ | hother
    · exact .inl ⟨rfl, hflawed⟩
    · exact .inr ⟨other, hother, rfl, hflawed⟩
  · rintro (⟨hspan, hflawed⟩ | ⟨other, hother, hlength, hflawed⟩)
    · cases hspan
      exact ⟨piece, h.pieceAt_append_iff.2 (.inl ⟨rfl, rfl⟩), rfl, hflawed⟩
    · exact ⟨other, h.pieceAt_append_iff.2 (.inr hother), hlength, hflawed⟩

/-- A piece without a flaw can be skipped. -/
theorem IsPiece.fault_skip_iff {before rest piece : List Char} (h : IsPiece before rest piece)
    (hsound : ∀ offset err, ¬ Flawed offset piece err) {err : FormulaError} {span : Span} :
    Fault before (piece ++ rest) err span ↔ Fault (before ++ piece) rest err span := by
  rw [h.fault_append_iff]
  exact or_iff_right fun hflawed => hsound _ _ hflawed.2

/-- The leftmost flaw of the text that follows on `before`. -/
structure FirstFault (before text : List Char) (err : FormulaError) (span : Span) : Prop where
  fault : Fault before text err span
  first : ∀ err' span', Fault before text err' span' →
    err' = err ∧ span' = span ∨ span.offset + span.length ≤ span'.offset

/-- The error for a flawed piece. -/
theorem IsPiece.firstFault {before rest piece : List Char} (h : IsPiece before rest piece)
    {err : FormulaError} (hflawed : Flawed (String.utf8Len before) piece err) :
    FirstFault before (piece ++ rest) err ⟨String.utf8Len before, String.utf8Len piece⟩ := by
  refine ⟨h.fault_append_iff.2 (.inl ⟨rfl, hflawed⟩), fun err' span' hfault => ?_⟩
  rcases h.fault_append_iff.1 hfault with ⟨rfl, hflawed'⟩ | ⟨other, hother, _⟩
  · exact .inl ⟨hflawed.eq hflawed', rfl⟩
  · have hle := hother.le_offset
    rw [String.utf8Len_append] at hle
    exact .inr hle

theorem IsPiece.firstFault_skip {before rest piece : List Char} (h : IsPiece before rest piece)
    (hsound : ∀ offset err, ¬ Flawed offset piece err) {err : FormulaError} {span : Span}
    (hfirst : FirstFault (before ++ piece) rest err span) :
    FirstFault before (piece ++ rest) err span where
  fault := (h.fault_skip_iff hsound).2 hfirst.fault
  first err' span' hfault := hfirst.first err' span' ((h.fault_skip_iff hsound).1 hfault)

/-! ### What the scan gives -/

/-- The tokens of the text that follows on `before` are pieces of it, in order, and leave blank
characters only. -/
structure Tokenizes (before text : List Char) (ts : List Token) : Prop where
  pieceAt : ∀ t ∈ ts, PieceAt before text t.text.toList t.offset
  means : ∀ t ∈ ts, Means t.text.toList t.symbol
  ordered : ts.Pairwise fun t u => t.offset + t.length ≤ u.offset
  isBlank : ∀ between c after, text = between ++ c :: after →
    (∀ t ∈ ts, ¬ t.span.Contains (String.utf8Len (before ++ between))) → Blank.isBlank c = true

theorem tokenizes_nil {before : List Char} : Tokenizes before [] [] where
  pieceAt := nofun
  means := nofun
  ordered := .nil
  isBlank between c after htext := by simp at htext

/-- A piece that is blank adds no token. -/
theorem Tokenizes.skip {before rest : List Char} {c : Char} {ts : List Token}
    (hblank : Blank.isBlank c = true) (h : Tokenizes (before ++ [c]) rest ts) :
    Tokenizes before (c :: rest) ts where
  pieceAt t ht :=
    (IsPiece.character (isDigit_of_isBlank hblank)).pieceAt_append_iff.2 (.inr (h.pieceAt t ht))
  means := h.means
  ordered := h.ordered
  isBlank between d after htext hout := by
    cases between with
    | nil =>
      obtain rfl := List.head_eq_of_cons_eq htext
      exact hblank
    | cons c' between =>
      rw [List.cons_append, List.cons_eq_cons] at htext
      obtain ⟨rfl, htext⟩ := htext
      refine h.isBlank between d after htext fun t ht hcontains => hout t ht ?_
      rwa [List.append_assoc] at hcontains

/-- Any other piece adds one. -/
theorem Tokenizes.cons {before rest piece : List Char} {a : Symbol} {ts : List Token}
    (hpiece : IsPiece before rest piece) (hmeans : Means piece a)
    (h : Tokenizes (before ++ piece) rest ts) :
    Tokenizes before (piece ++ rest) (⟨a, String.utf8Len before, String.ofList piece⟩ :: ts) where
  pieceAt := by
    refine List.forall_mem_cons.2 ⟨?_, fun t ht => ?_⟩
    · exact hpiece.pieceAt_append_iff.2 (.inl ⟨String.toList_ofList, rfl⟩)
    · exact hpiece.pieceAt_append_iff.2 (.inr (h.pieceAt t ht))
  means := List.forall_mem_cons.2 ⟨by rwa [String.toList_ofList], h.means⟩
  ordered := by
    refine List.pairwise_cons.2 ⟨fun t ht => ?_, h.ordered⟩
    have hle := (h.pieceAt t ht).le_offset
    rw [String.utf8Len_append] at hle
    simpa only [length, String.utf8ByteSize_ofList] using hle
  isBlank between d after htext hout := by
    obtain ⟨hfirst, hothers⟩ := List.forall_mem_cons.1 hout
    rw [List.append_eq_append_iff] at htext
    rcases htext with ⟨between, rfl, hrest⟩ | ⟨inside, rfl, hafter⟩
    · refine h.isBlank between d after hrest fun t ht hcontains => hothers t ht ?_
      rwa [List.append_assoc] at hcontains
    · cases inside with
      | nil =>
        refine h.isBlank [] d after hafter.symm fun t ht hcontains => hothers t ht ?_
        simpa using hcontains
      | cons d' inside =>
        -- the character lies in the piece, and so in the token
        refine absurd ⟨?_, ?_⟩ hfirst
        · rw [String.utf8Len_append]
          exact Nat.le_add_right _ _
        · have hpos := Char.utf8Size_pos d'
          simp only [span, length, String.utf8ByteSize_ofList, String.utf8Len_append,
            String.utf8Len_cons]
          omega

/-- A run of digits is a piece where it does not go on a run before it. -/
theorem isPiece_run {before rest digits : List Char} {c : Char}
    (hdigits : ∀ d ∈ c :: digits, d.isDigit = true) (hrest : ∀ d ∈ rest.head?, d.isDigit = false)
    (hapart : Apart before (c :: digits ++ rest)) : IsPiece before rest (c :: digits) := by
  refine .run hdigits (fun d hd => Bool.eq_false_iff.2 fun hdigit => ?_) hrest
  have hc := hapart d hd hdigit c rfl
  rw [hdigits c List.mem_cons_self] at hc
  cases hc

theorem forall_mem_cons_takeWhile {p : Char → Bool} {c : Char} {rest : List Char}
    (hc : p c = true) : ∀ d ∈ c :: rest.takeWhile p, p d = true :=
  List.forall_mem_cons.2 ⟨hc, fun _ hd => List.mem_takeWhile_imp hd⟩

/-- The digits at the start of a text are a piece. -/
theorem isPiece_takeWhile {before rest : List Char} {c : Char} (hc : c.isDigit = true)
    (hapart : Apart before (c :: rest)) :
    IsPiece before (rest.dropWhile Char.isDigit) (c :: rest.takeWhile Char.isDigit) := by
  refine isPiece_run (forall_mem_cons_takeWhile hc) head?_dropWhile ?_
  rwa [List.cons_append, List.takeWhile_append_dropWhile]

theorem eq_error_of_bind {x : Except FormulaError (List Token)} {f : List Token → List Token}
    {err : FormulaError} (h : (do return f (← x)) = Except.error err) : x = .error err := by
  cases x with
  | error err' =>
    cases h
    rfl
  | ok ts => cases h

section

variable {offset : Nat} {before text : List Char}

namespace Scanned

variable {ts : List Token} (h : Scanned offset text ts) (hoffset : offset = String.utf8Len before)
  (hapart : Apart before text)
include h hoffset hapart

theorem tokenizes : Tokenizes before text ts := by
  induction h generalizing before with
  | nil => exact tokenizes_nil
  | @blank offset c rest ts hblank _ ih =>
    have hpiece : IsPiece before rest [c] := .character (isDigit_of_isBlank hblank)
    exact .skip hblank (ih (by simp [hoffset]) hpiece.apart)
  | @operator offset c a rest ts _ hop _ ih =>
    have hpiece : IsPiece before rest [c] := .character (isDigit_of_operator? hop)
    subst hoffset
    exact .cons hpiece (.operator hop) (ih (by simp) hpiece.apart)
  | @index offset c digits rest ts _ _ hdigits hrest hbound _ ih =>
    have hpiece := isPiece_run hdigits hrest hapart
    subst hoffset
    refine .cons hpiece (.index hdigits hbound) (ih ?_ hpiece.apart)
    rw [String.utf8Len_append, utf8Len_of_digits hdigits]

theorem not_fault (err : FormulaError) (span : Span) : ¬ Fault before text err span := by
  induction h generalizing before with
  | nil => exact not_fault_nil
  | @blank offset c rest ts hblank _ ih =>
    have hpiece : IsPiece before rest [c] := .character (isDigit_of_isBlank hblank)
    exact mt (hpiece.fault_skip_iff (not_flawed_of_isBlank hblank)).1
      (ih (by simp [hoffset]) hpiece.apart)
  | @operator offset c a rest ts _ hop _ ih =>
    have hpiece : IsPiece before rest [c] := .character (isDigit_of_operator? hop)
    exact mt (hpiece.fault_skip_iff (Means.operator hop).not_flawed).1
      (ih (by simp [hoffset]) hpiece.apart)
  | @index offset c digits rest ts _ _ hdigits hrest hbound _ ih =>
    have hpiece := isPiece_run hdigits hrest hapart
    have hmeans : Means (c :: digits) _ := .index hdigits hbound
    refine mt (hpiece.fault_skip_iff hmeans.not_flawed).1 (ih ?_ hpiece.apart)
    rw [String.utf8Len_append, utf8Len_of_digits hdigits, hoffset]

end Scanned

/-- A scan that fails reports the leftmost flaw. -/
theorem exists_firstFault {err : FormulaError} (h : scan offset text = .error err)
    (hoffset : offset = String.utf8Len before) (hapart : Apart before text) :
    ∃ span, FirstFault before text err span := by
  -- every piece but the one reported is skipped
  induction offset, text using scan.induct generalizing before with
  | case1 offset =>
    rw [scan] at h
    cases h
  | case2 offset c rest hblank ih =>
    rw [scan, if_pos hblank] at h
    have hpiece : IsPiece before rest [c] := .character (isDigit_of_isBlank hblank)
    obtain ⟨span, hfirst⟩ := ih h (by simp [hoffset]) hpiece.apart
    exact ⟨span, hpiece.firstFault_skip (not_flawed_of_isBlank hblank) hfirst⟩
  | case3 offset c rest hblank a hop ih =>
    rw [scan, if_neg hblank, hop] at h
    have hpiece : IsPiece before rest [c] := .character (isDigit_of_operator? hop)
    obtain ⟨span, hfirst⟩ := ih (eq_error_of_bind h) (by simp [hoffset]) hpiece.apart
    exact ⟨span, hpiece.firstFault_skip (Means.operator hop).not_flawed hfirst⟩
  | case4 offset c rest hblank hop hdigit run hbound =>
    rename_i ih
    rw [scan, if_neg hblank, hop] at h
    simp only [if_pos hdigit] at h
    rw [if_pos hbound] at h
    have hpiece := isPiece_takeWhile hdigit hapart
    have hdigits : ∀ d ∈ run, d.isDigit = true := forall_mem_cons_takeWhile hdigit
    have hmeans : Means run _ := .index hdigits hbound
    obtain ⟨span, hfirst⟩ := ih (eq_error_of_bind h)
      (by rw [String.utf8Len_append, utf8Len_of_digits hdigits, hoffset]) hpiece.apart
    have hfirst := hpiece.firstFault_skip hmeans.not_flawed hfirst
    rw [List.cons_append, List.takeWhile_append_dropWhile] at hfirst
    exact ⟨span, hfirst⟩
  | case5 offset c rest hblank hop hdigit run =>
    rename_i hbound
    rw [scan, if_neg hblank, hop] at h
    simp only [if_pos hdigit] at h
    rw [if_neg hbound] at h
    cases h
    subst hoffset
    have hlarge := Nat.le_of_not_lt hbound
    have hfirst := (isPiece_takeWhile hdigit hapart).firstFault
      (.indexTooLarge (forall_mem_cons_takeWhile hdigit) hlarge)
    rw [List.cons_append, List.takeWhile_append_dropWhile] at hfirst
    exact ⟨_, hfirst⟩
  | case6 offset c rest hblank hop hdigit =>
    rw [scan, if_neg hblank, hop] at h
    simp only [if_neg hdigit] at h
    cases h
    subst hoffset
    have hdigit := Bool.eq_false_iff.2 hdigit
    have hpiece : IsPiece before rest [c] := .character hdigit
    exact ⟨_, hpiece.firstFault (.strayCharacter (Bool.eq_false_iff.2 hblank) hop hdigit)⟩

end

end Token

end RulePaths
