/-!
# Ascending lists

The levels of a factor, the subjects and the cells of a summary are listed in ascending order and
without repetition, so that nothing in an analysis depends on the order in which the data came.
`ascending` brings any list into that form by inserting its members one by one.

An ascending list is determined by its members: two lists with the same members have the same
ascending form.

A member of an ascending list is looked for by halving the list (`searchAscending`).  What is looked
for is given by a cut, which says of a member whether it stands before the place in question, at it
or behind it.
-/

namespace SplitPlot

/-! ## Ascending lists and their members -/

/-- Two strictly ascending lists with the same members are equal. -/
theorem eq_of_pairwise_of_mem_iff {α : Type} [LT α] [Std.Asymm (α := α) (· < ·)] :
    ∀ {l₁ l₂ : List α}, l₁.Pairwise (· < ·) → l₂.Pairwise (· < ·) →
      (∀ x, x ∈ l₁ ↔ x ∈ l₂) → l₁ = l₂
  | [], [], _, _, _ => rfl
  | [], b :: _, _, _, h => absurd ((h b).mpr (List.mem_cons_self ..)) (List.not_mem_nil)
  | a :: _, [], _, _, h => absurd ((h a).mp (List.mem_cons_self ..)) (List.not_mem_nil)
  | a :: l₁, b :: l₂, h₁, h₂, h => by
    obtain ⟨ha, hl₁⟩ := List.pairwise_cons.mp h₁
    obtain ⟨hb, hl₂⟩ := List.pairwise_cons.mp h₂
    -- each head is at most the other, since it occurs in the other list
    have hab : a = b := by
      rcases List.mem_cons.mp ((h a).mp (List.mem_cons_self ..)) with hab | hmem
      · exact hab
      · rcases List.mem_cons.mp ((h b).mpr (List.mem_cons_self ..)) with hba | hmem'
        · exact hba.symm
        · exact absurd (ha b hmem') (Std.Asymm.asymm (r := (· < ·)) b a (hb a hmem))
    subst hab
    refine congrArg (a :: ·) (eq_of_pairwise_of_mem_iff hl₁ hl₂ fun x => ?_)
    constructor
    · intro hx
      rcases List.mem_cons.mp ((h x).mp (List.mem_cons_of_mem a hx)) with rfl | hx'
      · exact absurd (ha x hx) (Std.Asymm.asymm (r := (· < ·)) x x (ha x hx))
      · exact hx'
    · intro hx
      rcases List.mem_cons.mp ((h x).mpr (List.mem_cons_of_mem a hx)) with rfl | hx'
      · exact absurd (hb x hx) (Std.Asymm.asymm (r := (· < ·)) x x (hb x hx))
      · exact hx'

/-! ## Insertion in order -/

variable {α : Type} [LT α] [DecidableLT α]

/-- Puts a value into its place in an ascending list, unless it is there already. -/
def insertAscending (a : α) : List α → List α
  | [] => [a]
  | b :: l =>
    if a < b then a :: b :: l
    else if b < a then b :: insertAscending a l
    else b :: l

/-- The distinct members of a list, in ascending order. -/
def ascending (l : List α) : List α := l.foldr insertAscending []

@[simp] theorem ascending_nil : ascending ([] : List α) = [] := rfl

@[simp] theorem ascending_cons (a : α) (l : List α) :
    ascending (a :: l) = insertAscending a (ascending l) := rfl

example : ascending [3, 1, 2, 3, 1] = [1, 2, 3] := by decide

/-! ## Members and order of the ascending form -/

section Members

variable [Std.Trichotomous (α := α) (· < ·)]

@[simp] theorem mem_insertAscending {a x : α} {l : List α} :
    x ∈ insertAscending a l ↔ x = a ∨ x ∈ l := by
  induction l with
  | nil => simp [insertAscending]
  | cons b l ih =>
    simp only [insertAscending]
    split
    · simp
    · split
      · simp [ih, or_left_comm]
      · next hab hba =>
        obtain rfl := Std.Trichotomous.trichotomous (r := (· < ·)) a b hab hba
        simp

/-- The ascending form of a list has the same members. -/
@[simp] theorem mem_ascending {x : α} {l : List α} : x ∈ ascending l ↔ x ∈ l := by
  induction l with
  | nil => simp
  | cons a l ih => simp [ih]

theorem ascending_eq_nil_iff {l : List α} : ascending l = [] ↔ l = [] := by
  simp only [List.eq_nil_iff_forall_not_mem, mem_ascending]

end Members

section Order

variable [Std.Trichotomous (α := α) (· < ·)] [Trans (α := α) (· < ·) (· < ·) (· < ·)]

theorem pairwise_insertAscending {a : α} {l : List α} (h : l.Pairwise (· < ·)) :
    (insertAscending a l).Pairwise (· < ·) := by
  induction l with
  | nil => simp [insertAscending]
  | cons b l ih =>
    obtain ⟨hb, hl⟩ := List.pairwise_cons.mp h
    simp only [insertAscending]
    split
    · next hab =>
      refine List.pairwise_cons.mpr ⟨fun x hx => ?_, h⟩
      rcases List.mem_cons.mp hx with rfl | hx
      · exact hab
      · exact Trans.trans hab (hb x hx)
    · split
      · next hba =>
        refine List.pairwise_cons.mpr ⟨fun x hx => ?_, ih hl⟩
        rcases mem_insertAscending.mp hx with rfl | hx
        · exact hba
        · exact hb x hx
      · exact h

/-- The ascending form of a list is strictly ascending. -/
theorem pairwise_ascending (l : List α) : (ascending l).Pairwise (· < ·) := by
  induction l with
  | nil => exact List.Pairwise.nil
  | cons a l ih => exact pairwise_insertAscending ih

/-- The ascending form depends on the members only. -/
theorem ascending_congr [Std.Asymm (α := α) (· < ·)] {l₁ l₂ : List α}
    (h : ∀ x, x ∈ l₁ ↔ x ∈ l₂) : ascending l₁ = ascending l₂ :=
  eq_of_pairwise_of_mem_iff (pairwise_ascending l₁) (pairwise_ascending l₂)
    fun x => by rw [mem_ascending, mem_ascending, h]

end Order

/-! ## Searching -/

section Search

variable {β : Type} {cut : β → Ordering} {l : List β}

/-- The member of an ascending list at which a cut falls, found by halving the list.  The cut is
`.lt` at the members before the place that is looked for and `.gt` at those behind it. -/
def searchAscending (cut : β → Ordering) (l : List β) : Option β :=
  match _h : l[l.length / 2]? with
  | none => none
  | some b =>
    match cut b with
    | .eq => some b
    | .gt => searchAscending cut (l.take (l.length / 2))
    | .lt => searchAscending cut (l.drop (l.length / 2 + 1))
termination_by l.length
decreasing_by
  all_goals
    have hlt := (List.getElem?_eq_some_iff.mp _h).1
    simp only [List.length_take, List.length_drop]
    omega

/-- A list around one of its members. -/
theorem take_append_cons_drop {m : Nat} {b : β} (h : l[m]? = some b) :
    l.take m ++ b :: l.drop (m + 1) = l := by
  obtain ⟨hlt, rfl⟩ := List.getElem?_eq_some_iff.mp h
  rw [List.getElem_cons_drop, List.take_append_drop]

/-- A part of a list that lies on one side of a cut holds nothing at the cut. -/
theorem find?_cut_eq_none {c : Ordering} (hc : c ≠ .eq) (h : ∀ a ∈ l, cut a = c) :
    l.find? (fun b => cut b == .eq) = none :=
  List.find?_eq_none.mpr fun a ha => by rwa [h a ha, beq_iff_eq]

/-- What stands in front of a member that is not behind the cut stands before the cut. -/
theorem cut_eq_lt_of_mem_take (hl : l.Pairwise fun a b => cut a ≠ .lt → cut b = .gt) {m : Nat}
    {b : β} (h : l[m]? = some b) (hb : cut b ≠ .gt) : ∀ a ∈ l.take m, cut a = .lt := by
  rw [← take_append_cons_drop h, List.pairwise_append] at hl
  exact fun a ha => Decidable.byContradiction fun hne => hb (hl.2.2 a ha b List.mem_cons_self hne)

/-- In a list that a cut divides, halving finds what a search from the front finds. -/
theorem searchAscending_eq_find? (hl : l.Pairwise fun a b => cut a ≠ .lt → cut b = .gt) :
    searchAscending cut l = l.find? fun b => cut b == .eq := by
  fun_induction searchAscending cut l with
  | case1 l h =>
    have hle := List.getElem?_eq_none_iff.mp h
    have hnil : l = [] := List.length_eq_zero_iff.mp (by omega)
    rw [hnil, List.find?_nil]
  | case2 l b h hcut =>
    have hlt := cut_eq_lt_of_mem_take hl h (by rw [hcut]; decide)
    conv => rhs; rw [← take_append_cons_drop h]
    rw [List.find?_append, find?_cut_eq_none (by decide) hlt, Option.none_or,
      List.find?_cons_of_pos (by rw [hcut]; rfl)]
  | case3 l b h hcut ih =>
    obtain ⟨-, hback, -⟩ := List.pairwise_append.mp ((take_append_cons_drop h).symm ▸ hl)
    have hgt : ∀ a ∈ b :: l.drop (l.length / 2 + 1), cut a = .gt := by
      refine List.forall_mem_cons.mpr ⟨hcut, fun a ha => ?_⟩
      exact (List.pairwise_cons.mp hback).1 a ha (by rw [hcut]; decide)
    rw [ih (hl.sublist (List.take_sublist _ _))]
    conv => rhs; rw [← take_append_cons_drop h]
    rw [List.find?_append, find?_cut_eq_none (by decide) hgt, Option.or_none]
  | case4 l b h hcut ih =>
    have hlt := cut_eq_lt_of_mem_take hl h (by rw [hcut]; decide)
    rw [ih (hl.sublist (List.drop_sublist _ _))]
    conv => rhs; rw [← take_append_cons_drop h]
    rw [List.find?_append, find?_cut_eq_none (by decide) hlt, Option.none_or,
      List.find?_cons_of_neg (by rw [hcut]; decide)]

/-- In such a list the member at the cut is the one that is found. -/
theorem searchAscending_eq_some_iff (hl : l.Pairwise fun a b => cut a ≠ .lt → cut b = .gt) {b : β} :
    searchAscending cut l = some b ↔ b ∈ l ∧ cut b = .eq := by
  rw [searchAscending_eq_find? hl]
  induction l with
  | nil => simp
  | cons a l ih =>
    obtain ⟨ha, hl⟩ := List.pairwise_cons.mp hl
    by_cases hcut : cut a = .eq
    · rw [List.find?_cons_of_pos (by rw [hcut]; rfl), Option.some_inj, List.mem_cons]
      constructor
      · rintro rfl
        exact ⟨.inl rfl, hcut⟩
      · rintro ⟨rfl | hb, hbcut⟩
        · rfl
        · rw [ha b hb (by rw [hcut]; decide)] at hbcut
          cases hbcut
    · rw [List.find?_cons_of_neg (by rwa [beq_iff_eq]), ih hl, List.mem_cons]
      refine and_congr_left fun hbcut => (or_iff_right ?_).symm
      rintro rfl
      exact hcut hbcut

end Search

example : searchAscending (compare · 4) [1, 3, 4, 8] = some 4 := by cbv

end SplitPlot
