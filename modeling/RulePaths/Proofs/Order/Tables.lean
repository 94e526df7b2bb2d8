import RulePaths.Table
import Mathlib.Data.List.Pairwise
import Mathlib.Data.List.Nodup

/-!
# What a table holds

A table is known by its entries, and an entry by the value that its key gets. Putting an entry in
changes what its own key gets and nothing else, and a table is what its entries make when they are
put in one after the other.

## Main results

- `Table.get?_eq_some_iff` — a key gets a value exactly if there is such an entry
- `Table.mem_entries_insert` — the entries after one was put in
- `Table.ofList_entries` — a table is made of its own entries
-/

namespace RulePaths

/-- If keys are different, the element found by a key is the one that has it. -/
theorem find?_key_eq_some_iff {α κ : Type} [BEq κ] [LawfulBEq κ] (key : α → κ) {l : List α}
    (h : (l.map key).Nodup) {k : κ} {a : α} :
    (l.find? fun a => key a == k) = some a ↔ a ∈ l ∧ key a = k := by
  have hfind : ∀ {b}, (l.find? fun a => key a == k) = some b → b ∈ l ∧ key b = k := fun hb =>
    ⟨List.mem_of_find?_eq_some hb, by simpa using List.find?_some hb⟩
  refine ⟨hfind, fun ⟨ha, hkey⟩ => ?_⟩
  cases hb : l.find? fun a => key a == k with
  | none =>
    rw [List.find?_eq_none] at hb
    exact absurd (beq_iff_eq.2 hkey) (hb a ha)
  | some b =>
    obtain ⟨hmem, hkey'⟩ := hfind hb
    rw [List.inj_on_of_nodup_map h hmem ha (hkey'.trans hkey.symm)]

namespace Table

open Std

variable {κ ν : Type} [Ord κ]

theorem eq_of_entries_eq {t u : Table κ ν} (h : t.entries = u.entries) : t = u := by
  cases t
  cases u
  cases h
  rfl

section

variable [LawfulEqOrd κ]

theorem compare_lt_ne {k l : κ} (h : compare k l = .lt) : k ≠ l := by
  rintro rfl
  rw [compare_self] at h
  cases h

theorem nodup_keys (t : Table κ ν) : (t.entries.map Prod.fst).Nodup :=
  List.pairwise_map.2 (t.ascending.imp compare_lt_ne)

theorem nodup_entries (t : Table κ ν) : t.entries.Nodup :=
  List.Nodup.of_map Prod.fst t.nodup_keys

theorem eq_of_mem_entries {t : Table κ ν} {k : κ} {v w : ν} (hv : (k, v) ∈ t.entries)
    (hw : (k, w) ∈ t.entries) : v = w := by
  have hpairwise : t.entries.Pairwise fun a b => a.1 = b.1 → a = b :=
    t.ascending.imp fun hlt heq => absurd heq (compare_lt_ne hlt)
  have : Symm fun a b : κ × ν => a.1 = b.1 → a = b := ⟨fun a b h heq => (h heq.symm).symm⟩
  exact (Prod.mk.inj (hpairwise.forall_of_forall (fun _ _ _ => rfl) hv hw rfl)).2

theorem get?_eq_some_iff {t : Table κ ν} {k : κ} {v : ν} :
    t.get? k = some v ↔ (k, v) ∈ t.entries := by
  have hfind : ∀ {w}, t.get? k = some w → (k, w) ∈ t.entries := by
    intro w hw
    obtain ⟨⟨l, u⟩, he, rfl⟩ := Option.map_eq_some_iff.1 hw
    obtain rfl : k = l := LawfulEqOrd.eq_of_compare (by simpa using List.find?_some he)
    exact List.mem_of_find?_eq_some he
  refine ⟨hfind, fun hmem => ?_⟩
  cases hw : t.get? k with
  | some w => rw [eq_of_mem_entries (hfind hw) hmem]
  | none =>
    rw [get?, Option.map_eq_none_iff, List.find?_eq_none] at hw
    exact absurd (by simp) (hw (k, v) hmem)

theorem get?_eq_none_iff {t : Table κ ν} {k : κ} :
    t.get? k = none ↔ ∀ v, (k, v) ∉ t.entries := by
  simp only [← get?_eq_some_iff]
  cases t.get? k with
  | none => simp
  | some v => simp

end

variable [TransOrd κ]

section

variable [LawfulEqOrd κ]

theorem mem_insertEntry_iff {k : κ} {v : ν} {es : List (κ × ν)}
    (h : es.Pairwise fun a b => compare a.1 b.1 = .lt) {x : κ × ν} :
    x ∈ insertEntry k v es ↔ x = (k, v) ∨ x ∈ es ∧ x.1 ≠ k := by
  induction es with
  | nil => simp [insertEntry]
  | cons e es ih =>
    obtain ⟨he, hes⟩ := List.pairwise_cons.1 h
    rw [insertEntry]
    split
    · next hlt =>
      -- every old key lies above the new one
      have hne : ∀ y ∈ e :: es, y.1 ≠ k := by
        intro y hy
        rcases List.mem_cons.1 hy with rfl | hy
        · exact (compare_lt_ne hlt).symm
        · exact (compare_lt_ne (TransCmp.lt_trans hlt (he y hy))).symm
      rw [List.mem_cons]
      exact or_congr_right ⟨fun hx => ⟨hx, hne x hx⟩, And.left⟩
    · next heq =>
      obtain rfl : k = e.1 := LawfulEqOrd.eq_of_compare heq
      have hne : ∀ y ∈ es, y.1 ≠ e.1 := fun y hy => (compare_lt_ne (he y hy)).symm
      simp only [List.mem_cons]
      constructor
      · rintro (rfl | hx)
        · exact .inl rfl
        · exact .inr ⟨.inr hx, hne x hx⟩
      · rintro (rfl | ⟨rfl | hx, hk⟩)
        · exact .inl rfl
        · exact absurd rfl hk
        · exact .inr hx
    · next hgt =>
      have hne : e.1 ≠ k := compare_lt_ne (OrientedCmp.lt_of_gt hgt)
      rw [List.mem_cons, List.mem_cons, ih hes]
      constructor
      · rintro (rfl | rfl | ⟨hx, hk⟩)
        · exact .inr ⟨.inl rfl, hne⟩
        · exact .inl rfl
        · exact .inr ⟨.inr hx, hk⟩
      · rintro (rfl | ⟨rfl | hx, hk⟩)
        · exact .inr (.inl rfl)
        · exact .inl rfl
        · exact .inr (.inr ⟨hx, hk⟩)

theorem mem_entries_insert {t : Table κ ν} {k : κ} {v : ν} {x : κ × ν} :
    x ∈ (t.insert k v).entries ↔ x = (k, v) ∨ x ∈ t.entries ∧ x.1 ≠ k :=
  mem_insertEntry_iff t.ascending

theorem get?_insert_self (t : Table κ ν) (k : κ) (v : ν) : (t.insert k v).get? k = some v :=
  get?_eq_some_iff.2 (mem_entries_insert.2 (.inl rfl))

theorem get?_insert_of_ne (t : Table κ ν) {k l : κ} (v : ν) (h : l ≠ k) :
    (t.insert k v).get? l = t.get? l := by
  ext w
  rw [get?_eq_some_iff, get?_eq_some_iff, mem_entries_insert]
  constructor
  · rintro (heq | ⟨hw, _⟩)
    · exact absurd (Prod.mk.inj heq).1 h
    · exact hw
  · exact fun hw => .inr ⟨hw, h⟩

end

/-! ### Tables from their entries -/

theorem insertEntry_above {k : κ} {v : ν} {es : List (κ × ν)}
    (h : ∀ e ∈ es, compare e.1 k = .lt) : insertEntry k v es = es ++ [(k, v)] := by
  induction es with
  | nil => rfl
  | cons e es ih =>
    have he : compare k e.1 = .gt := OrientedCmp.gt_of_lt (h e List.mem_cons_self)
    rw [insertEntry, he]
    show e :: insertEntry k v es = _
    rw [ih fun x hx => h x (List.mem_cons_of_mem e hx), List.cons_append]

theorem entries_foldl_insert {es : List (κ × ν)} {t : Table κ ν}
    (h : (t.entries ++ es).Pairwise fun a b => compare a.1 b.1 = .lt) :
    (es.foldl (fun t e => t.insert e.1 e.2) t).entries = t.entries ++ es := by
  induction es generalizing t with
  | nil => simp
  | cons e es ih =>
    have hinsert : (t.insert e.1 e.2).entries = t.entries ++ [e] := by
      apply insertEntry_above
      intro x hx
      exact (List.pairwise_append.1 h).2.2 x hx e List.mem_cons_self
    rw [List.foldl_cons, ih]
    · rw [hinsert, List.append_assoc, List.singleton_append]
    · rwa [hinsert, List.append_assoc, List.singleton_append]

theorem ofList_entries (t : Table κ ν) : ofList t.entries = t :=
  eq_of_entries_eq (entries_foldl_insert t.ascending)

/-! ### The entries in another order -/

/-- The entries of a table are those of a list, whatever their order. -/
def Lists (t : Table κ ν) (es : List (κ × ν)) : Prop :=
  ∀ e, e ∈ t.entries ↔ e ∈ es

section

variable [LawfulEqOrd κ] {t : Table κ ν} {es : List (κ × ν)} {k : κ} {v : ν}

omit [TransOrd κ] in
theorem Lists.get?_eq_some_iff (h : t.Lists es) : t.get? k = some v ↔ (k, v) ∈ es := by
  rw [Table.get?_eq_some_iff, h]

omit [TransOrd κ] in
theorem Lists.get?_eq_none (h : t.Lists es) (hk : k ∉ es.map Prod.fst) : t.get? k = none := by
  rw [get?_eq_none_iff]
  intro v hv
  exact hk (List.mem_map_of_mem ((h (k, v)).1 hv))

omit [TransOrd κ] in
theorem Lists.perm (h : t.Lists es) (hes : (es.map Prod.fst).Nodup) : t.entries.Perm es :=
  (List.perm_ext_iff_of_nodup t.nodup_entries (List.Nodup.of_map Prod.fst hes)).2 h

/-- An entry with a new key. -/
theorem Lists.insert_new (h : t.Lists es) (hk : k ∉ es.map Prod.fst) (v : ν) :
    (t.insert k v).Lists (es ++ [(k, v)]) := by
  intro e
  rw [mem_entries_insert, h e, List.mem_append, List.mem_singleton, or_comm]
  refine or_congr_left ⟨And.left, fun he => ⟨he, ?_⟩⟩
  rintro rfl
  exact hk (List.mem_map_of_mem he)

/-- An entry put in the place of the one with its key. -/
theorem Lists.insert_old (h : t.Lists es) (hes : (es.map Prod.fst).Nodup) {i : Nat} {u : ν}
    (hi : es[i]? = some (k, u)) (v : ν) : (t.insert k v).Lists (es.set i (k, v)) := by
  obtain ⟨hlt, hget⟩ := List.getElem?_eq_some_iff.1 hi
  intro e
  rw [mem_entries_insert, h e, List.mem_iff_getElem? (l := es.set i (k, v))]
  constructor
  · rintro (rfl | ⟨he, hne⟩)
    · exact ⟨i, by simp [hlt]⟩
    · obtain ⟨j, hj⟩ := List.mem_iff_getElem?.1 he
      have hij : i ≠ j := by
        rintro rfl
        exact hne (congrArg Prod.fst (Option.some.inj (hj.symm.trans hi)))
      exact ⟨j, by rw [List.getElem?_set_ne hij, hj]⟩
  · rintro ⟨j, hj⟩
    by_cases hij : i = j
    · subst hij
      rw [List.getElem?_set_self hlt] at hj
      exact .inl (Option.some.inj hj).symm
    · rw [List.getElem?_set_ne hij] at hj
      refine .inr ⟨List.mem_of_getElem? hj, fun hk => hij ?_⟩
      -- keys are not repeated, so the places are the same
      have hkeys : (es.map Prod.fst)[i]? = (es.map Prod.fst)[j]? := by
        rw [List.getElem?_map, List.getElem?_map, hi, hj, Option.map_some, Option.map_some, hk]
      exact (List.getElem?_inj (by simpa using hlt) hes).1 hkeys

/-- A list that ascends is the list of entries. -/
theorem Lists.entries_eq (h : t.Lists es)
    (hes : es.Pairwise fun a b => compare a.1 b.1 = .lt) : t.entries = es := by
  have hnodup : es.Nodup := hes.imp fun hlt heq => compare_lt_ne hlt (congrArg Prod.fst heq)
  refine ((List.perm_ext_iff_of_nodup t.nodup_entries hnodup).2 h).eq_of_pairwise ?_ t.ascending hes
  intro a b _ _ hab hba
  exact absurd (TransCmp.lt_trans hab hba) (by simp)

end

end Table

end RulePaths
