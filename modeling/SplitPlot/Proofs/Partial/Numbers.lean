import Mathlib
import SplitPlot.Proofs.Exact

/-!
# Numbers that may be undefined

In the real numbers as `SplitPlot.Proofs.Exact` has them every operation has a value: a division by
zero gives zero, and so does the logarithm of zero.  A statement about them does not say that an
analysis never divides by zero.  `Checked` says it.  It is the reals with one more number, which is
*undefined*:

* the quotient by zero is undefined, the logarithm of a number that is not positive, and the power
  of a base that is not positive;
* an operation on an undefined number is undefined;
* a comparison with an undefined number comes out in some way, of which nothing is known
  (`Comparison`).

A square is a product.  The root of a negative number is zero here as well: it is no quotient,
logarithm or power, and the only one that an analysis takes is tested afterwards.

`Checked` is a `Scalar`, so the whole library computes with it.  If a computation on defined numbers
gives the same with `Checked` as with the reals, for every way in which comparisons may come out,
then it does not divide by zero on the way to any number of its result, nor take the logarithm or
the power of one that is not positive, and no branch that it takes depends on an undefined number.

This file has one lemma for each operation on numbers, by the name of the operation: what it gives
on the numbers `of c x`.  The lemmas on quotients, logarithms and powers have the condition under
which there is a value, and `div_eq_undefined_iff`, `log_eq_undefined_iff` and
`pow_eq_undefined_iff` say when there is none.
-/

namespace SplitPlot

/-- How comparisons with a number that is not defined come out. -/
structure Comparison where
  /-- The outcome of the strict comparison. -/
  lt : Option ℝ → Option ℝ → Prop
  /-- The outcome of the weak comparison. -/
  le : Option ℝ → Option ℝ → Prop

/-- A real number or none, with the given outcomes of comparisons. -/
def Checked (_ : Comparison) : Type := Option ℝ

namespace Checked

variable {c : Comparison}

/-- A real number as one that is defined. -/
def of (c : Comparison) (x : ℝ) : Checked c := some x

/-- The number without a value. -/
def undefined : Checked c := none

/-- The operation on numbers that are all defined. -/
def lift (f : ℝ → Checked c) (x : Checked c) : Checked c := Option.bind x f

open Classical in
noncomputable instance : Scalar (Checked c) where
  zero := of c 0
  one := of c 1
  add x y := x.lift fun a => y.lift fun b => of c (a + b)
  sub x y := x.lift fun a => y.lift fun b => of c (a - b)
  mul x y := x.lift fun a => y.lift fun b => of c (a * b)
  div x y := x.lift fun a => y.lift fun b => if b = 0 then undefined else of c (a / b)
  neg x := x.lift fun a => of c (-a)
  natCast n := of c n
  intCast n := of c n
  ofScientific m s e := of c (OfScientific.ofScientific m s e)
  lt x y :=
    match x, y with
    | some a, some b => a < b
    | _, _ => c.lt x y
  le x y :=
    match x, y with
    | some a, some b => a ≤ b
    | _, _ => c.le x y
  decideLT _ _ := propDecidable _
  decideLE _ _ := propDecidable _
  sqrt x := x.lift fun a => of c (Real.sqrt a)
  exp x := x.lift fun a => of c (Real.exp a)
  log x := x.lift fun a => if a ≤ 0 then undefined else of c (Real.log a)
  sin x := x.lift fun a => of c (Real.sin a)
  pow x y := x.lift fun a => y.lift fun b => if a ≤ 0 then undefined else of c (a ^ b)
  pi := of c Real.pi
  infinity := of c Scalar.infinity

/-! ## Operations -/

section Operations

variable (x y : ℝ)

@[simp] theorem zero_eq : (0 : Checked c) = of c 0 := rfl

@[simp] theorem one_eq : (1 : Checked c) = of c 1 := rfl

@[simp] theorem natCast_eq (n : ℕ) : (n : Checked c) = of c n := rfl

@[simp] theorem ofScientific_eq (m : ℕ) (s : Bool) (e : ℕ) :
    (OfScientific.ofScientific m s e : Checked c) = of c (OfScientific.ofScientific m s e) := rfl

@[simp] theorem of_add : of c x + of c y = of c (x + y) := rfl

@[simp] theorem of_sub : of c x - of c y = of c (x - y) := rfl

@[simp] theorem of_mul : of c x * of c y = of c (x * y) := rfl

@[simp] theorem of_neg : -of c x = of c (-x) := rfl

@[simp] theorem of_sqrt : Scalar.sqrt (of c x) = of c (Scalar.sqrt x) := rfl

@[simp] theorem of_exp : Scalar.exp (of c x) = of c (Scalar.exp x) := rfl

@[simp] theorem of_sin : Scalar.sin (of c x) = of c (Scalar.sin x) := rfl

@[simp] theorem pi_eq : (Scalar.pi : Checked c) = of c Scalar.pi := rfl

@[simp] theorem infinity_eq : (Scalar.infinity : Checked c) = of c Scalar.infinity := rfl

variable {x y}

theorem of_div (hy : y ≠ 0) : of c x / of c y = of c (x / y) := if_neg hy

theorem of_log (hx : 0 < x) : Scalar.log (of c x) = of c (Scalar.log x) := if_neg (not_le.mpr hx)

theorem of_pow (hx : 0 < x) : Scalar.pow (of c x) (of c y) = of c (Scalar.pow x y) :=
  if_neg (not_le.mpr hx)

end Operations

/-! ## Undefined results -/

section Undefined

variable {x y : Checked c}

theorem eq_undefined_or_of : ∀ x : Checked c, x = undefined ∨ ∃ a, x = of c a
  | none => .inl rfl
  | some a => .inr ⟨a, rfl⟩

theorem of_ne_undefined (a : ℝ) : of c a ≠ undefined := Option.some_ne_none a

/-- A quotient is undefined exactly if one of the two numbers is, or if the divisor is zero. -/
theorem div_eq_undefined_iff : x / y = undefined ↔ x = undefined ∨ y = undefined ∨ y = of c 0 := by
  rcases eq_undefined_or_of x with rfl | ⟨a, rfl⟩
  · exact iff_of_true rfl (.inl rfl)
  · rcases eq_undefined_or_of y with rfl | ⟨b, rfl⟩
    · exact iff_of_true rfl (.inr (.inl rfl))
    · by_cases hb : b = 0
      · subst hb
        exact iff_of_true (if_pos rfl) (.inr (.inr rfl))
      · rw [of_div hb]
        refine iff_of_false (of_ne_undefined _) ?_
        rintro (h | h | h)
        · exact of_ne_undefined a h
        · exact of_ne_undefined b h
        · exact hb (Option.some.inj h)

/-- A logarithm is undefined exactly if it is taken of an undefined number, or of one that is not
positive. -/
theorem log_eq_undefined_iff : Scalar.log x = undefined ↔ x = undefined ∨ ∃ a ≤ 0, x = of c a := by
  rcases eq_undefined_or_of x with rfl | ⟨a, rfl⟩
  · exact iff_of_true rfl (.inl rfl)
  · by_cases ha : a ≤ 0
    · exact iff_of_true (if_pos ha) (.inr ⟨a, ha, rfl⟩)
    · rw [of_log (not_le.mp ha)]
      refine iff_of_false (of_ne_undefined _) ?_
      rintro (h | ⟨b, hb, h⟩)
      · exact of_ne_undefined a h
      · exact ha (Option.some.inj h ▸ hb)

/-- A power is undefined exactly if the base or the exponent is, or if the base is not positive. -/
theorem pow_eq_undefined_iff : Scalar.pow x y = undefined ↔
    x = undefined ∨ y = undefined ∨ ∃ a ≤ 0, x = of c a := by
  rcases eq_undefined_or_of x with rfl | ⟨a, rfl⟩
  · exact iff_of_true rfl (.inl rfl)
  · rcases eq_undefined_or_of y with rfl | ⟨b, rfl⟩
    · exact iff_of_true rfl (.inr (.inl rfl))
    · by_cases ha : a ≤ 0
      · exact iff_of_true (if_pos ha) (.inr (.inr ⟨a, ha, rfl⟩))
      · rw [of_pow (not_le.mp ha)]
        refine iff_of_false (of_ne_undefined _) ?_
        rintro (h | h | ⟨e, he, h⟩)
        · exact of_ne_undefined a h
        · exact of_ne_undefined b h
        · exact ha (Option.some.inj h ▸ he)

end Undefined

/-! ## Comparisons -/

section Comparisons

variable {x y : ℝ}

@[simp] theorem of_lt_iff : of c x < of c y ↔ x < y := Iff.rfl

@[simp] theorem of_le_iff : of c x ≤ of c y ↔ x ≤ y := Iff.rfl

@[simp] theorem isZero_of_iff : Scalar.IsZero (of c x) ↔ x = 0 := isZero_iff x

@[simp] theorem isNumber_of : Scalar.IsNumber (of c x) := le_refl x

@[simp] theorem isFinite_of : Scalar.IsFinite (of c x) := by
  rw [Scalar.IsFinite, of_sub, isZero_of_iff]
  exact sub_self x

/-- A choice by a test that comes out as it does in the reals. -/
theorem ite_of {p q : Prop} [Decidable p] [Decidable q] (h : p ↔ q) (x y : ℝ) :
    (if p then of c x else of c y) = of c (if q then x else y) := by
  rw [apply_ite (of c)]
  exact if_congr h rfl rfl

variable (x y)

@[simp] theorem abs_of : Scalar.abs (of c x) = of c (Scalar.abs x) := ite_of of_lt_iff _ _

@[simp] theorem larger_of : Scalar.larger (of c x) (of c y) = of c (Scalar.larger x y) := by
  rw [Scalar.larger, Scalar.larger, if_pos isNumber_of, if_pos (isNumber x)]
  exact ite_of of_lt_iff _ _

@[simp] theorem smaller_of : Scalar.smaller (of c x) (of c y) = of c (Scalar.smaller x y) := by
  rw [Scalar.smaller, Scalar.smaller, if_pos isNumber_of, if_pos (isNumber x)]
  exact ite_of of_lt_iff _ _

@[simp] theorem clamp_of (lo hi : ℝ) :
    Scalar.clamp (of c lo) (of c hi) (of c x) = of c (Scalar.clamp lo hi x) := by
  rw [Scalar.clamp, Scalar.clamp, ite_of (q := hi < x) of_lt_iff]
  exact ite_of of_lt_iff _ _

@[simp] theorem half_of : Scalar.half (of c x) = of c (Scalar.half x) :=
  of_div (Nat.cast_ne_zero.mpr two_ne_zero)

/-- The quotient that is guarded by a test of the divisor is always defined. -/
@[simp] theorem ratio_of : Scalar.ratio (of c x) (of c y) = of c (Scalar.ratio x y) := by
  rw [Scalar.ratio, Scalar.ratio, zero_eq]
  by_cases hy : 0 < y
  · rw [if_pos hy, if_pos (of_lt_iff.mpr hy), of_div hy.ne']
  · rw [if_neg hy, if_neg (mt of_lt_iff.mp hy)]

end Comparisons

/-! ## Sums, products and means -/

section Lists

variable (l : List ℝ)

@[simp] theorem total_map_of : total (l.map (of c)) = of c (total l) := by
  induction l using List.reverseRecOn with
  | nil => rfl
  | append_singleton l x ih =>
    rw [List.map_append, List.map_singleton, total_concat, total_concat, ih]
    rfl

@[simp] theorem product_map_of : product (l.map (of c)) = of c (product l) := by
  induction l using List.reverseRecOn with
  | nil => rfl
  | append_singleton l x ih =>
    rw [List.map_append, List.map_singleton, product_concat, product_concat, ih]
    rfl

variable {l} in
/-- The divisor of a mean is the number of values. -/
theorem mean_map_of (hl : l ≠ []) : mean (l.map (of c)) = of c (mean l) := by
  have hlen : (l.length : ℝ) ≠ 0 := Nat.cast_ne_zero.mpr (mt List.length_eq_zero_iff.mp hl)
  rw [mean, mean, total_map_of, List.length_map, natCast_eq, of_div hlen]

/-- The harmonic mean tests each value before it is inverted, and the sum of the reciprocals. -/
@[simp] theorem harmonicMean_map_of : harmonicMean (l.map (of c)) = of c (harmonicMean l) := by
  have hany : (l.map (of c)).any (Scalar.IsZero ·) = l.any (Scalar.IsZero ·) := by
    rw [List.any_map]
    refine congrArg l.any (funext fun x => ?_)
    exact decide_eq_decide.mpr (isZero_of_iff.trans (isZero_iff x).symm)
  rw [harmonicMean, harmonicMean, hany]
  by_cases hzero : l.any (Scalar.IsZero ·) = true
  · rw [if_pos hzero, if_pos hzero, zero_eq]
  · have hinv : (l.map (of c)).map (1 / ·) = (l.map (1 / ·)).map (of c) := by
      rw [List.map_map, List.map_map]
      refine List.map_congr_left fun x hx => ?_
      have hx0 : x ≠ 0 := fun h0 => hzero (List.any_eq_true.mpr
        ⟨x, hx, decide_eq_true ((isZero_iff x).mpr h0)⟩)
      exact of_div hx0
    have hempty : (l.map (of c)).isEmpty = l.isEmpty := List.isEmpty_map
    rw [if_neg hzero, if_neg hzero]
    simp only [hinv, total_map_of, hempty, isZero_of_iff, isZero_iff]
    by_cases h : l.isEmpty = true ∨ total (l.map (1 / ·)) = 0
    · rw [if_pos h, if_pos h, zero_eq]
    · rw [if_neg h, if_neg h, List.length_map, natCast_eq, of_div fun h0 => h (.inr h0)]

theorem getD_map_of (j : ℕ) : (l.map (of c)).getD j 0 = of c (l.getD j 0) := List.getD_map ..

end Lists

end Checked

end SplitPlot
