import Mathlib
import SplitPlot.Proofs.Decomposition.Scores
import SplitPlot.Proofs.Decomposition.ZeroSums

/-!
# The weights of combined contrasts are an orthogonal basis

`contrastWeights` multiplies the contrasts of several factors.  What is known of one factor is a
table of whole numbers; of several factors it has to be derived, for any list of numbers of levels
(`contrastBasis_contrastWeights`).  A column of weights is a combination of contrasts of all the
axes, times its norm (`get_contrastWeights_flatIndex`), so the order of the columns is that of the
combinations and the order of the rows that of the cells, and the facts about combinations carry
over.

That the columns span what has zero sums along every axis comes without a count of dimensions: such
a function belongs to all axes, and the combinations, each times the score of a function on it, add
up to what of the function belongs to all axes.
-/

namespace SplitPlot

open Finset

/-- A matrix with one row for each cell of a shape, whose columns are an orthogonal basis of the
functions on the cells that have zero sums along every axis, and the lengths of the columns. -/
structure ContrastBasis (levels : List ℕ) (W : Mat ℝ) (norms : List ℝ) : Prop where
  rows : W.rows = levels.prod
  cols : W.cols = (levels.map fun n => n - 1).prod
  zeroSum : ∀ c < W.cols, ∀ axis < levels.length,
    ZeroSumAlong levels axis fun x => W.get (flatIndex x levels) c
  ne_zero : ∀ c < W.cols, ∃ k < W.rows, W.get k c ≠ 0
  orthogonal : ∀ c < W.cols, ∀ e < W.cols, c ≠ e → ∑ k ∈ range W.rows, W.get k c * W.get k e = 0
  norms_sq : norms.map (· ^ 2) =
    (List.range W.cols).map fun c => ∑ k ∈ range W.rows, W.get k c ^ 2
  spans : ∀ g : List ℕ → ℝ, (∀ axis < levels.length, ZeroSumAlong levels axis g) →
    ∃ a : ℕ → ℝ, ∀ x, InBounds x levels →
      g x = ∑ c ∈ range W.cols, a c * W.get (flatIndex x levels) c

/-! ## Combinations of contrasts of all axes -/

section AllAxes

@[simp] theorem droppedShape_allFlagged (levels : List ℕ) :
    droppedShape (allFlagged levels) = levels := by
  induction levels with
  | nil => rfl
  | cons n levels ih => exact congrArg (n :: ·) ih

@[simp] theorem joined_allFlagged (levels : List ℕ) : joined (allFlagged levels) = 1 := by
  induction levels with
  | nil => rfl
  | cons n levels ih => exact ih

theorem keptLevels_allFlagged : ∀ {levels x : List ℕ}, x.length = levels.length →
    keptLevels (allFlagged levels) x = x
  | [], [], _ => rfl
  | _ :: _, i :: _, h => congrArg (i :: ·) (keptLevels_allFlagged (Nat.succ.inj h))

theorem combinations_allFlagged (levels : List ℕ) :
    combinations (allFlagged levels) = positions (contrastShape levels) := by
  rw [combinations, droppedShape_allFlagged]

theorem bounds_allFlagged {levels : List ℕ} (h : ∀ n ∈ levels, 0 < n ∧ n ≤ maxWithinLevels) :
    ∀ a ∈ allFlagged levels, 0 < a.1 ∧ a.1 ≤ maxWithinLevels := fun a ha => by
  obtain ⟨n, hn, rfl⟩ := List.mem_map.mp ha
  exact h n hn

end AllAxes

/-! ## Columns of weights -/

section Columns

theorem rows_contrastWeights (levels : List ℕ) :
    (contrastWeights levels : Mat ℝ).rows = cellCount levels := by
  rw [contrastWeights, Mat.rows_ofFn, List.size_toArray, length_multiIndices]

variable {levels : List ℕ}

/-- A sum over the rows of two columns is one over the cells. -/
theorem sum_contrastWeights_mul {c e : ℕ} (hc : c < cellCount (contrastShape levels))
    (he : e < cellCount (contrastShape levels)) :
    ∑ k ∈ range (cellCount levels), (contrastWeights levels : Mat ℝ).get k c *
        (contrastWeights levels : Mat ℝ).get k e =
      ∑ x ∈ positions levels, (contrastWeight levels (unravel (contrastShape levels) c) x : ℝ) *
        contrastWeight levels (unravel (contrastShape levels) e) x := by
  rw [← sum_range_unravel]
  refine sum_congr rfl fun k hk => ?_
  rw [Design.get_contrastWeights (mem_range.mp hk) hc,
    Design.get_contrastWeights (mem_range.mp hk) he]

/-- The square of a norm is the sum of the squared weights of the column. -/
theorem sq_contrastNorm {c : ℕ} (hc : c < cellCount (contrastShape levels)) :
    (contrastNorm levels (unravel (contrastShape levels) c) : ℝ) ^ 2 =
      ∑ k ∈ range (cellCount levels), (contrastWeights levels : Mat ℝ).get k c ^ 2 := by
  have hnonneg : (0 : ℝ) ≤ squaredNorm levels (unravel (contrastShape levels) c) :=
    Int.cast_nonneg (squaredNorm_nonneg _ _)
  simp only [pow_two ((contrastWeights levels : Mat ℝ).get _ c)]
  rw [sum_contrastWeights_mul hc hc]
  show √((squaredNorm levels (unravel (contrastShape levels) c) : ℤ) : ℝ) ^ 2 = _
  rw [Real.sq_sqrt hnonneg, squaredNorm_eq_sum, Int.cast_sum]
  exact sum_congr rfl fun x _ => by rw [Int.cast_pow, pow_two]

variable (hlevels : ∀ n ∈ levels, 0 < n ∧ n ≤ maxWithinLevels)

include hlevels

/-- A weight is the value of the combination of contrasts of all axes, times its norm. -/
theorem contrastWeight_eq {b x : List ℕ} (hb : InBounds b (contrastShape levels))
    (hx : InBounds x levels) : (contrastWeight levels b x : ℝ) =
      contrastNorm levels b * contrastAt (allFlagged levels) b x := by
  have hnorm : (contrastNorm levels b : ℝ) ≠ 0 :=
    (contrastNorm_pos hlevels (mem_multiIndices.mpr hb)).ne'
  rw [contrastAt, droppedShape_allFlagged, keptLevels_allFlagged hx.length_eq,
    mul_div_cancel₀ _ hnorm]

/-- The weight in the row of a cell. -/
theorem get_contrastWeights_flatIndex {x : List ℕ} (hx : InBounds x levels) {c : ℕ}
    (hc : c < cellCount (contrastShape levels)) :
    (contrastWeights levels : Mat ℝ).get (flatIndex x levels) c =
      contrastNorm levels (unravel (contrastShape levels) c) *
        contrastAt (allFlagged levels) (unravel (contrastShape levels) c) x := by
  rw [Design.get_contrastWeights (flatIndex_lt hx) hc, unravel_flatIndex hx,
    contrastWeight_eq hlevels (inBounds_unravel hc) hx]

/-- A column has zero sums along every axis. -/
theorem zeroSumAlong_contrastWeights {c axis : ℕ} (hc : c < cellCount (contrastShape levels))
    (haxis : axis < levels.length) :
    ZeroSumAlong levels axis fun x =>
      (contrastWeights levels : Mat ℝ).get (flatIndex x levels) c := by
  have hflag : (allFlagged levels)[axis]? = some (levels[axis], true) := by
    rw [allFlagged, List.getElem?_map, List.getElem?_eq_getElem haxis]
    rfl
  have hb : unravel (contrastShape levels) c ∈ combinations (allFlagged levels) := by
    rw [combinations_allFlagged]
    exact mem_positions.mpr (inBounds_unravel hc)
  have hzero := zeroSumAlong_contrastAt (bounds_allFlagged hlevels) hflag hb
  rw [map_fst_allFlagged] at hzero
  refine (hzero.const_mul (contrastNorm levels (unravel (contrastShape levels) c))).congr ?_
  exact fun x hx => (get_contrastWeights_flatIndex hlevels hx hc).symm

/-- Different columns are orthogonal. -/
theorem sum_contrastWeights_mul_of_ne {c e : ℕ} (hc : c < cellCount (contrastShape levels))
    (he : e < cellCount (contrastShape levels)) (hne : c ≠ e) :
    ∑ k ∈ range (cellCount levels), (contrastWeights levels : Mat ℝ).get k c *
      (contrastWeights levels : Mat ℝ).get k e = 0 := by
  have horth := sum_contrastAt_mul_contrastAt (bounds_allFlagged hlevels)
    (combinations_allFlagged levels ▸ mem_positions.mpr (inBounds_unravel hc))
    (combinations_allFlagged levels ▸ mem_positions.mpr (inBounds_unravel he))
  rw [map_fst_allFlagged, if_neg fun h => hne (eq_of_unravel_eq hc he h)] at horth
  rw [sum_contrastWeights_mul hc he]
  calc ∑ x ∈ positions levels, (contrastWeight levels (unravel (contrastShape levels) c) x : ℝ) *
        contrastWeight levels (unravel (contrastShape levels) e) x
      = ∑ x ∈ positions levels, contrastNorm levels (unravel (contrastShape levels) c) *
          contrastNorm levels (unravel (contrastShape levels) e) *
          (contrastAt (allFlagged levels) (unravel (contrastShape levels) c) x *
            contrastAt (allFlagged levels) (unravel (contrastShape levels) e) x) :=
        sum_congr rfl fun x hx => by
          rw [contrastWeight_eq hlevels (inBounds_unravel hc) (mem_positions.mp hx),
            contrastWeight_eq hlevels (inBounds_unravel he) (mem_positions.mp hx), mul_mul_mul_comm]
    _ = 0 := by rw [← mul_sum, horth, mul_zero]

/-- A function with zero sums along every axis is a combination of the columns: each column is taken
as often as the function scores on it. -/
theorem exists_eq_sum_contrastWeights {g : List ℕ → ℝ}
    (hg : ∀ axis < levels.length, ZeroSumAlong levels axis g) :
    ∃ a : ℕ → ℝ, ∀ x, InBounds x levels → g x =
      ∑ c ∈ range (cellCount (contrastShape levels)),
        a c * (contrastWeights levels : Mat ℝ).get (flatIndex x levels) c := by
  refine ⟨fun c => contrastScore (allFlagged levels) g (unravel (contrastShape levels) c) /
    contrastNorm levels (unravel (contrastShape levels) c), fun x hx => ?_⟩
  have hparts := sum_contrastAt_mul_score (bounds_allFlagged hlevels) g
    ((map_fst_allFlagged levels).symm ▸ mem_positions.mpr hx)
  rw [joined_allFlagged, Nat.cast_one, one_mul, pureLine_of_zeroSum hg hx, combinations_allFlagged,
    ← sum_range_unravel] at hparts
  rw [← hparts]
  refine sum_congr rfl fun c hc => ?_
  have hc := mem_range.mp hc
  have hnorm : (contrastNorm levels (unravel (contrastShape levels) c) : ℝ) ≠ 0 :=
    (contrastNorm_pos hlevels (mem_multiIndices.mpr (inBounds_unravel hc))).ne'
  rw [get_contrastWeights_flatIndex hlevels hx hc, ← mul_assoc, div_mul_cancel₀ _ hnorm, mul_comm]

end Columns

/-! ## The basis -/

/-- **The weights of combined contrasts are an orthogonal basis.**  For any list of factors, each
with levels for which there are contrasts, the columns of weights have zero sums along every axis,
none is zero, they are orthogonal to one another, the norms by which the columns of scores are
divided are their lengths, and every function on the cells with zero sums along every axis is a
combination of them. -/
theorem contrastBasis_contrastWeights {levels : List ℕ}
    (hlevels : ∀ n ∈ levels, 0 < n ∧ n ≤ maxWithinLevels) :
    ContrastBasis levels (contrastWeights levels)
      ((multiIndices (contrastShape levels)).map (contrastNorm levels)) where
  rows := rows_contrastWeights levels
  cols := Design.cols_contrastWeights levels
  zeroSum c hc axis haxis :=
    zeroSumAlong_contrastWeights hlevels (hc.trans_eq (Design.cols_contrastWeights levels)) haxis
  ne_zero c hc := by
    have hc := hc.trans_eq (Design.cols_contrastWeights levels)
    have hpos : (0 : ℝ) < contrastNorm levels (unravel (contrastShape levels) c) ^ 2 :=
      pow_pos (contrastNorm_pos hlevels (mem_multiIndices.mpr (inBounds_unravel hc))) 2
    rw [sq_contrastNorm hc] at hpos
    obtain ⟨k, hk, hne⟩ := exists_ne_zero_of_sum_ne_zero hpos.ne'
    rw [rows_contrastWeights]
    exact ⟨k, mem_range.mp hk, fun h => hne (by rw [h, zero_pow two_ne_zero])⟩
  orthogonal c hc e he hne := by
    rw [rows_contrastWeights]
    exact sum_contrastWeights_mul_of_ne hlevels (hc.trans_eq (Design.cols_contrastWeights levels))
      (he.trans_eq (Design.cols_contrastWeights levels)) hne
  norms_sq := by
    rw [multiIndices_eq, List.map_map, List.map_map, Design.cols_contrastWeights,
      rows_contrastWeights]
    exact List.map_congr_left fun c hc => sq_contrastNorm (List.mem_range.mp hc)
  spans g hg := by
    rw [Design.cols_contrastWeights]
    exact exists_eq_sum_contrastWeights hlevels hg

/-- The weights of two factors with two and three levels. -/
theorem contrastBasis_two_three : ((∀ n ∈ [2, 3], 0 < n ∧ n ≤ maxWithinLevels) ∧
    (contrastWeights [2, 3] : Mat ℝ).cols = 2) ∧ ContrastBasis [2, 3] (contrastWeights [2, 3])
      ((multiIndices (contrastShape [2, 3])).map (contrastNorm [2, 3])) :=
  ⟨⟨by decide, rfl⟩, contrastBasis_contrastWeights (by decide)⟩

example :
    (multiIndices [2, 3]).map (contrastWeight [2, 3] [0, 0]) = [1, 0, -1, -1, 0, 1] := by decide

end SplitPlot
