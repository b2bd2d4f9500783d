import Mathlib
import SplitPlot.Proofs.Rows

/-!
# Exact arithmetic

Statements of exact arithmetic are statements about the real numbers.  This file makes the reals a
`Scalar`, with their own operations throughout, and translates the few definitions through which
the library touches numbers: sums are the sums of lists, tests for zero and for finiteness are what
they say, and the larger and the smaller of two numbers are the maximum and the minimum.

The reals have no value for an infinite logarithm of the gamma function.  The number that stands in
its place is not special in any way, and no statement depends on it.
-/

namespace SplitPlot

noncomputable instance : Scalar ℝ where
  zero := 0
  one := 1
  add := (· + ·)
  sub := (· - ·)
  mul := (· * ·)
  div := (· / ·)
  neg := (- ·)
  natCast := Nat.cast
  intCast := Int.cast
  ofScientific m s e := OfScientific.ofScientific m s e
  lt := (· < ·)
  le := (· ≤ ·)
  decideLT := Real.decidableLT
  decideLE := Real.decidableLE
  sqrt := Real.sqrt
  exp := Real.exp
  log := Real.log
  sin := Real.sin
  pow := (· ^ ·)
  pi := Real.pi
  infinity := 0

/-! ## Tests -/

@[simp] theorem isZero_iff (x : ℝ) : Scalar.IsZero x ↔ x = 0 := le_antisymm_iff.symm

@[simp] theorem isNumber (x : ℝ) : Scalar.IsNumber x := le_refl x

@[simp] theorem isFinite (x : ℝ) : Scalar.IsFinite x := (isZero_iff _).mpr (sub_self x)

@[simp] theorem abs_eq (x : ℝ) : Scalar.abs x = |x| := by
  rw [Scalar.abs]
  split
  · next h => exact (abs_of_neg h).symm
  · next h => exact (abs_of_nonneg (not_lt.mp h)).symm

@[simp] theorem larger_eq (x y : ℝ) : Scalar.larger x y = max x y := by
  rw [Scalar.larger, if_pos (isNumber x)]
  split
  · next h => exact (max_eq_right (le_of_lt h)).symm
  · next h => exact (max_eq_left (not_lt.mp h)).symm

@[simp] theorem smaller_eq (x y : ℝ) : Scalar.smaller x y = min x y := by
  rw [Scalar.smaller, if_pos (isNumber x)]
  split
  · next h => exact (min_eq_right (le_of_lt h)).symm
  · next h => exact (min_eq_left (not_lt.mp h)).symm

/-! ## Sums, products and means -/

@[simp] theorem total_eq_sum (l : List ℝ) : total l = l.sum := List.sum_eq_foldl.symm

@[simp] theorem product_eq_prod (l : List ℝ) : product l = l.prod := List.prod_eq_foldl.symm

theorem mean_eq (l : List ℝ) : mean l = l.sum / l.length := by
  rw [mean, total_eq_sum]

theorem mean_singleton (x : ℝ) : mean [x] = x := by
  rw [mean_eq, List.sum_singleton, List.length_singleton, Nat.cast_one, div_one]

/-- Without a zero among them, the harmonic mean of numbers is their number over the sum of their
reciprocals.  A sum of zero gives zero either way. -/
theorem harmonicMean_eq {l : List ℝ} (h : ∀ x ∈ l, x ≠ 0) :
    harmonicMean l = l.length / (l.map fun x => x⁻¹).sum := by
  have hany : l.any (Scalar.IsZero ·) = false := by
    rw [List.any_eq_false]
    intro x hx
    simpa using h x hx
  have hmap : (l.map (1 / ·) : List ℝ) = l.map fun x => x⁻¹ :=
    List.map_congr_left fun x _ => one_div x
  rw [harmonicMean, hany, hmap, total_eq_sum]
  simp only [Bool.false_eq_true, if_false, isZero_iff]
  split
  · next h0 =>
    rcases h0 with h0 | h0
    · rw [List.isEmpty_iff.mp h0]
      simp
    · rw [h0, div_zero]
  · rfl

/-- One zero makes the harmonic mean zero. -/
theorem harmonicMean_eq_zero_of_mem {l : List ℝ} (h : 0 ∈ l) : harmonicMean l = 0 := by
  have hany : l.any (Scalar.IsZero ·) = true :=
    List.any_eq_true.mpr ⟨0, h, decide_eq_true ((isZero_iff 0).mpr rfl)⟩
  rw [harmonicMean, hany, if_pos rfl]

/-- The harmonic mean of numbers that are not negative is not negative. -/
theorem harmonicMean_nonneg {l : List ℝ} (h : ∀ x ∈ l, 0 ≤ x) : 0 ≤ harmonicMean l := by
  by_cases h0 : ∀ x ∈ l, x ≠ 0
  · rw [harmonicMean_eq h0]
    refine div_nonneg (Nat.cast_nonneg _) (List.sum_nonneg fun y hy => ?_)
    obtain ⟨x, hx, rfl⟩ := List.mem_map.mp hy
    exact inv_nonneg.mpr (h x hx)
  · push Not at h0
    obtain ⟨x, hx, rfl⟩ := h0
    exact (harmonicMean_eq_zero_of_mem hx).ge

/-- The harmonic mean of positive numbers is positive. -/
theorem harmonicMean_pos {l : List ℝ} (hne : l ≠ []) (h : ∀ x ∈ l, 0 < x) : 0 < harmonicMean l := by
  rw [harmonicMean_eq fun x hx => (h x hx).ne']
  refine div_pos (Nat.cast_pos.mpr (List.length_pos_iff.mpr hne))
    (List.sum_pos _ (fun y hy => ?_) ?_)
  · obtain ⟨x, hx, rfl⟩ := List.mem_map.mp hy
    exact inv_pos.mpr (h x hx)
  · rwa [Ne, List.map_eq_nil_iff]

/-- The harmonic mean of equal numbers is that number. -/
theorem harmonicMean_of_forall_eq {l : List ℝ} {c : ℝ} (hne : l ≠ []) (h : ∀ x ∈ l, x = c) :
    harmonicMean l = c := by
  rw [List.eq_replicate_of_mem h]
  have hlen : (l.length : ℝ) ≠ 0 := Nat.cast_ne_zero.mpr (mt List.length_eq_zero_iff.mp hne)
  by_cases hc : c = 0
  · rw [hc]
    exact harmonicMean_eq_zero_of_mem
      (List.mem_replicate.mpr ⟨mt List.length_eq_zero_iff.mp hne, rfl⟩)
  · rw [harmonicMean_eq fun x hx => List.eq_of_mem_replicate hx ▸ hc, List.length_replicate,
      List.map_replicate, List.sum_replicate, nsmul_eq_mul]
    field_simp

/-! ## Tables -/

/-- Rows of one width, offered to the empty table, are all kept. -/
theorem built_of_width {w : ℕ} {rows : List (Observation ℝ)} (hne : rows ≠ [])
    (hw : ∀ r ∈ rows, r.levels.length = w) :
    (⟨some w, rows⟩ : ObservationTable ℝ).Built :=
  ObservationTable.built_of_ofRows
    (ObservationTable.ofRows_eq_ok hne hw fun r _ => isFinite r.value)

/-- A table of whole numbers: the subject, the levels and the value of each row. -/
noncomputable def wholeTable (width : ℕ) (rows : List (ℤ × List ℤ × ℤ)) : ObservationTable ℝ :=
  ⟨some width, rows.map fun r => ⟨.int r.1, r.2.1.map .int, r.2.2⟩⟩

theorem built_wholeTable {width : ℕ} {rows : List (ℤ × List ℤ × ℤ)} (hne : rows ≠ [])
    (hw : ∀ r ∈ rows, r.2.1.length = width) : (wholeTable width rows).Built := by
  refine built_of_width (mt List.map_eq_nil_iff.mp hne) fun o ho => ?_
  obtain ⟨r, hr, rfl⟩ := List.mem_map.mp ho
  rw [List.length_map, hw r hr]

end SplitPlot
