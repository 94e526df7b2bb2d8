import RulePaths.Formula.Token
import Mathlib.Data.List.TakeWhile
import Mathlib.Data.String.Basic

/-!
# Where tokens lie

What the scan makes of a text is told by a relation with a case for each piece of the text: a blank
character, an operator or parenthesis, and a run of digits that does not go on. By it a text can be
cut before any token, with the tokens up to there being those of the first part, and continued,
unless digits would follow digits.

## Main results

- `Token.scan_eq_ok_iff` — the tokens of a text are those that the relation gives it
- `Token.Scanned.append` — the tokens of a continued text
- `Token.Scanned.cut` — the text before a token has the tokens before it
-/

namespace RulePaths

namespace Token

/-- The text that starts at a byte is made up of pieces with these tokens. -/
inductive Scanned : Nat → List Char → List Token → Prop where
  | nil {offset : Nat} : Scanned offset [] []
  | blank {offset : Nat} {c : Char} {cs : List Char} {ts : List Token} :
      Blank.isBlank c = true → Scanned (offset + c.utf8Size) cs ts → Scanned offset (c :: cs) ts
  | operator {offset : Nat} {c : Char} {a : Symbol} {cs : List Char} {ts : List Token} :
      Blank.isBlank c = false → operator? c = some a → Scanned (offset + c.utf8Size) cs ts →
        Scanned offset (c :: cs) (⟨a, offset, c.toString⟩ :: ts)
  | index {offset : Nat} {c : Char} {run cs : List Char} {ts : List Token} :
      Blank.isBlank c = false → operator? c = none → (∀ d ∈ c :: run, d.isDigit = true) →
        (∀ d ∈ cs.head?, d.isDigit = false) → Text.decimal (c :: run) < indexBound →
          Scanned (offset + (c :: run).length) cs ts →
            Scanned offset (c :: run ++ cs)
              (⟨.index (Text.decimal (c :: run)), offset, String.ofList (c :: run)⟩ :: ts)

/-- A run of digits ends where something else follows. -/
theorem takeWhile_dropWhile_append {p : Char → Bool} {run cs : List Char}
    (hrun : ∀ c ∈ run, p c = true) (hcs : ∀ c ∈ cs.head?, p c = false) :
    (run ++ cs).takeWhile p = run ∧ (run ++ cs).dropWhile p = cs := by
  rw [List.takeWhile_append_of_pos hrun, List.dropWhile_append_of_pos hrun]
  cases cs with
  | nil => simp
  | cons c cs =>
    have hc : p c = false := hcs c rfl
    simp [hc]

theorem head?_dropWhile {p : Char → Bool} {cs : List Char} :
    ∀ c ∈ (cs.dropWhile p).head?, p c = false := by
  intro c hc
  have hnot := List.head?_dropWhile_not p cs
  rwa [hc] at hnot

/-- Digits take one byte each. -/
theorem utf8Len_of_digits {cs : List Char} (h : ∀ c ∈ cs, c.isDigit = true) :
    String.utf8Len cs = cs.length := by
  induction cs with
  | nil => rfl
  | cons c cs ih =>
    obtain ⟨hc, hcs⟩ := List.forall_mem_cons.1 h
    have hsize : c.utf8Size = 1 := by
      rw [Char.utf8Size_eq_one_iff]
      simp only [Char.isDigit, Bool.and_eq_true, decide_eq_true_eq] at hc
      exact UInt32.le_trans hc.2 (by decide)
    rw [String.utf8Len_cons, ih hcs, hsize, List.length_cons]

theorem scanned_of_scan {offset : Nat} {cs : List Char} {ts : List Token}
    (h : scan offset cs = .ok ts) : Scanned offset cs ts := by
  induction offset, cs using scan.induct generalizing ts with
  | case1 offset =>
    rw [scan] at h
    cases h
    exact .nil
  | case2 offset c rest hblank ih =>
    rw [scan, if_pos hblank] at h
    exact .blank hblank (ih h)
  | case3 offset c rest hblank a hop ih =>
    rw [scan, if_neg hblank, hop] at h
    cases hrest : scan (offset + c.utf8Size) rest with
    | error err =>
      rw [hrest] at h
      cases h
    | ok us =>
      rw [hrest] at h
      cases h
      exact .operator (Bool.eq_false_iff.2 hblank) hop (ih hrest)
  | case4 offset c rest hblank hop hdigit run hbound =>
    rename_i ih
    rw [scan, if_neg hblank, hop] at h
    simp only [if_pos hdigit] at h
    rw [if_pos hbound] at h
    cases hrest : scan (offset + run.length) (rest.dropWhile Char.isDigit) with
    | error err =>
      rw [hrest] at h
      cases h
    | ok us =>
      rw [hrest] at h
      cases h
      have hscanned := Scanned.index (Bool.eq_false_iff.2 hblank) hop
        (List.forall_mem_cons.2 ⟨hdigit, fun d hd => List.mem_takeWhile_imp hd⟩)
        head?_dropWhile hbound (ih hrest)
      rwa [List.cons_append, List.takeWhile_append_dropWhile] at hscanned
  | case5 offset c rest hblank hop hdigit run =>
    rename_i hbound
    rw [scan, if_neg hblank, hop] at h
    simp only [if_pos hdigit] at h
    rw [if_neg hbound] at h
    cases h
  | case6 offset c rest hblank hop hdigit =>
    rw [scan, if_neg hblank, hop] at h
    simp only [if_neg hdigit] at h
    cases h

/-- The scan finds the tokens that the pieces of a text give it. -/
theorem scan_eq_ok_iff {offset : Nat} {cs : List Char} {ts : List Token} :
    scan offset cs = .ok ts ↔ Scanned offset cs ts := by
  refine ⟨scanned_of_scan, fun h => ?_⟩
  induction h with
  | nil => rw [scan]
  | blank hblank _ ih => rw [scan, if_pos hblank, ih]
  | operator hblank hop _ ih =>
    rw [scan, if_neg (by simp [hblank]), hop]
    dsimp only
    rw [ih]
    rfl
  | @index offset c run cs ts hblank hop hrun hcs hbound _ ih =>
    obtain ⟨htake, hdrop⟩ := takeWhile_dropWhile_append (List.forall_mem_cons.1 hrun).2 hcs
    rw [List.cons_append, scan, if_neg (by simp [hblank]), hop]
    simp only [if_pos (hrun c List.mem_cons_self), htake, hdrop]
    rw [if_pos hbound, ih]
    rfl

namespace Scanned

/-- A continued text has more tokens, if no digits follow on digits. -/
theorem append {offset : Nat} {cs ds : List Char} {ts us : List Token} (h : Scanned offset cs ts)
    (hds : ∀ d ∈ ds.head?, d.isDigit = false) (hus : Scanned (offset + String.utf8Len cs) ds us) :
    Scanned offset (cs ++ ds) (ts ++ us) := by
  induction h with
  | nil => exact hus
  | blank hblank _ ih =>
    rw [String.utf8Len_cons, Nat.add_comm (String.utf8Len _), ← Nat.add_assoc] at hus
    exact .blank hblank (ih hus)
  | operator hblank hop _ ih =>
    rw [String.utf8Len_cons, Nat.add_comm (String.utf8Len _), ← Nat.add_assoc] at hus
    exact .operator hblank hop (ih hus)
  | @index offset c run cs ts hblank hop hrun hcs hbound _ ih =>
    rw [String.utf8Len_append, utf8Len_of_digits hrun, ← Nat.add_assoc] at hus
    rw [List.append_assoc]
    refine .index hblank hop hrun ?_ hbound (ih hus)
    cases cs with
    | nil => exact hds
    | cons c cs => exact hcs

/-- The text before a token has the tokens before it. -/
theorem cut {offset : Nat} {cs : List Char} {ts : List Token} (h : Scanned offset cs ts) {k : Nat}
    {t : Token} (ht : ts[k]? = some t) :
    ∃ as bs, cs = as ++ t.text.toList ++ bs ∧ t.offset = offset + String.utf8Len as ∧
      Scanned offset as (ts.take k) := by
  induction h generalizing k with
  | nil => simp at ht
  | @blank offset c cs ts hblank _ ih =>
    obtain ⟨as, bs, rfl, hoffset, has⟩ := ih ht
    refine ⟨c :: as, bs, by simp, ?_, .blank hblank has⟩
    rw [hoffset, String.utf8Len_cons]
    omega
  | @operator offset c a cs ts hblank hop _ ih =>
    cases k with
    | zero =>
      obtain rfl := Option.some_inj.1 ht
      exact ⟨[], cs, by simp, by simp, .nil⟩
    | succ k =>
      obtain ⟨as, bs, rfl, hoffset, has⟩ := ih ht
      refine ⟨c :: as, bs, by simp, ?_, .operator hblank hop has⟩
      rw [hoffset, String.utf8Len_cons]
      omega
  | @index offset c run cs ts hblank hop hrun hcs hbound _ ih =>
    cases k with
    | zero =>
      obtain rfl := Option.some_inj.1 ht
      exact ⟨[], cs, by simp, by simp, .nil⟩
    | succ k =>
      obtain ⟨as, bs, rfl, hoffset, has⟩ := ih ht
      refine ⟨c :: run ++ as, bs, by simp, ?_, .index hblank hop hrun ?_ hbound has⟩
      · rw [hoffset, String.utf8Len_append, utf8Len_of_digits hrun, Nat.add_assoc]
      · cases as with
        | nil => simp
        | cons d as => exact hcs

end Scanned

/-- A formula lies around each of its tokens, and has the tokens before it in the text before it. -/
theorem exists_before {formula : String} {ts : List Token} (h : ofFormula formula = .ok ts)
    {k : Nat} {t : Token} (ht : ts[k]? = some t) :
    ∃ before after : String, formula = before ++ t.text ++ after ∧
      t.offset = before.utf8ByteSize ∧ ofFormula before = .ok (ts.take k) := by
  obtain ⟨as, bs, hformula, hoffset, has⟩ := (scan_eq_ok_iff.1 h).cut ht
  refine ⟨String.ofList as, String.ofList bs, ?_, ?_, ?_⟩
  · rw [← String.ofList_toList (s := formula), hformula, String.ofList_append, String.ofList_append,
      String.ofList_toList]
  · rw [hoffset, Nat.zero_add, String.utf8ByteSize_ofList]
  · rw [ofFormula, String.toList_ofList]
    exact scan_eq_ok_iff.2 has

theorem ofFormula_append {formula : String} {ts us : List Token} {cs : List Char}
    (h : ofFormula formula = .ok ts) (hcs : ∀ c ∈ cs.head?, c.isDigit = false)
    (hus : Scanned formula.utf8ByteSize cs us) :
    ofFormula (formula ++ String.ofList cs) = .ok (ts ++ us) := by
  rw [ofFormula, String.toList_append, String.toList_ofList]
  refine scan_eq_ok_iff.2 ((scan_eq_ok_iff.1 h).append hcs ?_)
  rwa [Nat.zero_add, ← String.utf8ByteSize_ofList, String.ofList_toList]

end Token

end RulePaths
