import RulePaths.Formula.Expr

/-!
# The domain of an expression

The attributes that an expression mentions, in ascending order and without repeats. The
position of an attribute in its domain is the bit that stands for it in the numbers of rows,
so ascending positions are ascending attributes.
-/

namespace RulePaths

/-- A finite set of attributes, listed in ascending order. -/
structure Domain where
  attributes : List Nat
  ascending : attributes.Pairwise (· < ·)
deriving DecidableEq

namespace Domain

/-- An attribute put in its place of an ascending list, unless it is there. -/
def insertAscending (a : Nat) : List Nat → List Nat
  | [] => [a]
  | b :: bs =>
    if a < b then a :: b :: bs
    else if a = b then b :: bs
    else b :: insertAscending a bs

@[simp] theorem mem_insertAscending {a x : Nat} {as : List Nat} :
    x ∈ insertAscending a as ↔ x = a ∨ x ∈ as := by
  induction as with
  | nil => simp [insertAscending]
  | cons b bs ih =>
    rw [insertAscending]
    split
    · simp
    · split
      · next h => subst h; simp
      · simp only [List.mem_cons, ih]; grind

theorem pairwise_insertAscending {a : Nat} {as : List Nat}
    (h : as.Pairwise (· < ·)) : (insertAscending a as).Pairwise (· < ·) := by
  induction as with
  | nil => simp [insertAscending]
  | cons b bs ih =>
    obtain ⟨hb, hbs⟩ := List.pairwise_cons.1 h
    rw [insertAscending]
    split
    · next hab =>
      refine List.pairwise_cons.2 ⟨fun x hx => ?_, h⟩
      rcases List.mem_cons.1 hx with rfl | hx
      · exact hab
      · exact Nat.lt_trans hab (hb x hx)
    · split
      · exact h
      · refine List.pairwise_cons.2 ⟨fun x hx => ?_, ih hbs⟩
        rcases mem_insertAscending.1 hx with rfl | hx
        · omega
        · exact hb x hx

/-- The domain without attributes. -/
def empty : Domain := ⟨[], .nil⟩

/-- The domain with one more attribute. -/
def insert (a : Nat) (d : Domain) : Domain :=
  ⟨insertAscending a d.attributes, pairwise_insertAscending d.ascending⟩

/-- The domain of the attributes in a list. -/
def ofList (as : List Nat) : Domain :=
  as.foldr insert empty

/-- The domain of an expression: every attribute it mentions. -/
def ofExpr (e : Expr) : Domain :=
  ofList e.mentions

/-- The number of attributes. -/
def size (d : Domain) : Nat :=
  d.attributes.length

/-- The position of an attribute, if it belongs to the domain. -/
def position? (d : Domain) (a : Nat) : Option Nat :=
  d.attributes.idxOf? a

/-- Rows and implicants are numbers of this many bits. -/
def width : Nat := 32

/-- The number whose bits are the positions of the domain, as far as a row reaches. -/
def fullMask (d : Domain) : Nat :=
  1 <<< min d.size width - 1

/-- The assignment that a row stands for: an attribute of the domain holds if the bit at its
position is set, and no other attribute holds. -/
def assignment (d : Domain) (row : Nat) : Assignment := fun a =>
  match d.position? a with
  | some p => row.testBit p
  | none => false

@[simp] theorem mem_ofList {a : Nat} {as : List Nat} :
    a ∈ (ofList as).attributes ↔ a ∈ as := by
  induction as with
  | nil => simp [ofList, empty]
  | cons b bs ih =>
    have : (ofList (b :: bs)).attributes = insertAscending b (ofList bs).attributes := rfl
    rw [this, mem_insertAscending, ih, List.mem_cons]

/-- The domain of an expression holds exactly the attributes that it mentions. -/
theorem mem_ofExpr {a : Nat} {e : Expr} :
    a ∈ (ofExpr e).attributes ↔ a ∈ e.mentions :=
  mem_ofList

end Domain

end RulePaths
