import RulePaths.Proofs.Formula.Implicants
import RulePaths.Proofs.Path.Text

/-!
# The text of a path tells its term

A path is known by its text, and rules over different domains share the paths that have one text.
That is sound because the text can be read back: implicants over any two domains have the same text
only if they have the same literals. What a path is linked by are the pieces of its text, and these
are the attributes of the literals, from the lowest one on.

## Main definitions

- `Implicant.ReadsAs` — what is read off the text of an implicant over a domain

## Main results

- `Implicant.render_readsAs` — texts of implicants are equal only for equal literals, and their
  tokens are the attributes of the literals
-/

namespace RulePaths

theorem Domain.getElem?_attributes {d : Domain} {p a : Nat} :
    d.attributes[p]? = some a ↔ p < d.size ∧ d.attributeAt p = a := by
  rw [List.getElem?_eq_some_iff]
  constructor
  · rintro ⟨hp, rfl⟩
    exact ⟨hp, attributeAt_eq_getElem hp⟩
  · rintro ⟨hp, rfl⟩
    exact ⟨hp, (attributeAt_eq_getElem hp).symm⟩

theorem Path.repr_inj {a b : Nat} : a.repr = b.repr ↔ a = b :=
  ⟨fun h => index_eq_of_repr_eq (k := ⟨a, false⟩) (l := ⟨b, false⟩) h, congrArg Nat.repr⟩

namespace Implicant

/-- What is read off a text that stands for an implicant over a domain. -/
structure ReadsAs (d : Domain) (i : Implicant) (text : String) : Prop where
  /-- The literals can be read back. -/
  literals_eq : Path.literals text = i.literals d
  /-- The tokens are the attributes of the literals in decimal digits. -/
  tokens_eq : Path.attributeTokens text = (i.literals d).map fun l => l.index.repr
  ascending : (i.literals d).Pairwise fun k l => k.index < l.index
  /-- There is one token for each position that the implicant fixes. -/
  length_eq : (Path.attributeTokens text).length = i.literalCount
  mem_iff : ∀ a : Nat, a.repr ∈ Path.attributeTokens text ↔
    ∃ p, i.care.testBit p = true ∧ d.attributes[p]? = some a
  /-- The first token is the lowest attribute. -/
  lead : ∀ token ∈ (Path.attributeTokens text).head?,
    ∃ l ∈ i.literals d, token = l.index.repr ∧ ∀ k ∈ i.literals d, l.index ≤ k.index
  /-- Only the empty term has no tokens. -/
  eq_nil_iff : Path.attributeTokens text = [] ↔ i = ⟨0, 0⟩

theorem mem_map_literals {d : Domain} {i : Implicant} (h : i.Within d.size) {a : Nat} :
    a.repr ∈ (i.literals d).map (fun l => l.index.repr) ↔
      ∃ p, i.care.testBit p = true ∧ d.attributes[p]? = some a := by
  rw [List.mem_map]
  constructor
  · rintro ⟨l, hl, hrepr⟩
    obtain ⟨p, hcare, rfl⟩ := (mem_literals h).1 hl
    exact ⟨p, hcare, Domain.getElem?_attributes.2 ⟨h.lt_of_care hcare, Path.repr_inj.1 hrepr⟩⟩
  · rintro ⟨p, hcare, hp⟩
    obtain ⟨_, rfl⟩ := Domain.getElem?_attributes.1 hp
    exact ⟨_, (mem_literals h).2 ⟨p, hcare, rfl⟩, rfl⟩

/-- A term whose literals ascend starts with its lowest attribute. -/
theorem exists_lowest_of_head? {t : Term} (h : t.Ascending) {token : String}
    (htoken : token ∈ (t.map fun l => l.index.repr).head?) :
    ∃ l ∈ t, token = l.index.repr ∧ ∀ k ∈ t, l.index ≤ k.index := by
  cases t with
  | nil => cases htoken
  | cons l t =>
    obtain rfl : l.index.repr = token := Option.some_inj.1 htoken
    refine ⟨l, List.mem_cons_self, rfl, fun k hk => ?_⟩
    rcases List.mem_cons.1 hk with rfl | hk
    · exact Nat.le_refl _
    · exact Nat.le_of_lt ((List.pairwise_cons.1 h).1 k hk)

theorem literals_eq_nil_iff {d : Domain} {i : Implicant} (h : i.Within d.size) :
    i.literals d = [] ↔ i = ⟨0, 0⟩ := by
  constructor
  · intro hnil
    have hcare : ∀ p, i.care.testBit p = false := fun p => by
      by_contra hp
      have hmem := (mem_literals h).2 ⟨p, by simpa using hp, rfl⟩
      exact List.not_mem_nil (hnil ▸ hmem)
    have hzero : (⟨0, 0⟩ : Implicant).Within d.size := ⟨Nat.two_pow_pos _, rfl⟩
    refine h.ext hzero (fun p => ?_) fun p hp => ?_
    · rw [hcare p, Nat.zero_testBit]
    · cases (hcare p).symm.trans hp
  · rintro rfl
    simp [literals]

/-- An implicant over a domain has the same text as one over any other domain exactly if they have
the same literals. From its text its literals are read back, and the tokens of the text are the
attributes of the literals in ascending order. -/
theorem render_readsAs {d : Domain} {i : Implicant} (hd : d.size ≤ Domain.width)
    (hi : i.Within d.size) :
    (∀ (d' : Domain) (i' : Implicant), i.render d = i'.render d' ↔
      i.literals d = i'.literals d') ∧
    i.ReadsAs d (i.render d) := by
  have htokens : Path.attributeTokens (i.render d) = (i.literals d).map fun l => l.index.repr :=
    Path.attributeTokens_render (literals_ascending d i)
  refine ⟨fun d' i' => Path.render_injective.eq_iff, ?_⟩
  constructor
  · exact Path.literals_render (i.literals d)
  · exact htokens
  · exact literals_ascending d i
  · rw [htokens, List.length_map, length_literals hi hd]
  · intro a
    rw [htokens]
    exact mem_map_literals hi
  · intro token htoken
    rw [htokens] at htoken
    exact exists_lowest_of_head? (literals_ascending d i) htoken
  · rw [htokens, List.map_eq_nil_iff]
    exact literals_eq_nil_iff hi

/-- The attributes `1` and `12` do not hold and `3` holds, over two domains that have other
attributes besides. -/
theorem render_readsAs_sharedText :
    let d : Domain := ⟨[1, 3, 4, 12], by decide⟩
    let d' : Domain := ⟨[0, 1, 3, 12, 4294967295], by decide⟩
    let i : Implicant := ⟨2, 11⟩
    let i' : Implicant := ⟨4, 14⟩
    d.size ≤ Domain.width ∧ i.Within d.size ∧ i.render d = "!1&3!12" ∧
      i.render d = i'.render d' ∧ i.ReadsAs d "!1&3!12" := by
  intro d d' i i'
  have hd : d.size ≤ Domain.width := by decide
  have hi : i.Within d.size := by decide
  have htext : i.render d = "!1&3!12" := by decide
  obtain ⟨hiff, hreads⟩ := render_readsAs hd hi
  exact ⟨hd, hi, htext, (hiff d' i').2 (by decide), htext ▸ hreads⟩

end Implicant

end RulePaths
