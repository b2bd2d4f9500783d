import Mathlib
import SplitPlot.Proofs.Decomposition.Restriction
import SplitPlot.Proofs.Mat.CrossProduct
import SplitPlot.Proofs.Mat.Semidefinite
import SplitPlot.Proofs.Results

/-!
# The models of a source are nested

Whatever the sizes of the cells, the weights of a hypothesis matrix are not negative.  So the matrix
is positive semidefinite (`Accepted.posSemidef_hypothesis`), the sum of squares of a source between
subjects is not negative (`Accepted.hypothesis_nonneg`), and the error matrices of every other
source are those of a model and of a restriction of it (`Accepted.nested_within`,
`Accepted.nested_mixed`).

What the restriction of a source within subjects adds are the products of the grand means of its
contrast scores, once for each subject (`Accepted.sub_within`): the residuals of each score sum to
zero, so no products of residuals with grand means are left.
-/

namespace SplitPlot

open Finset

namespace Design

variable {d : Design ℝ}

/-! ## Weights -/

theorem get_counts_nonneg (values : Mat ℝ) {x : List ℕ} (hx : InBounds x d.betweenShape) :
    0 ≤ (d.statistics values).counts.get x := by
  rw [statistics, CellStatistics.get_counts hx]
  exact Nat.cast_nonneg _

theorem get_marginalCounts_nonneg {values : Mat ℝ} {s : Source} {x : List ℕ}
    (hx : InBounds x (keptShape (d.flags d.betweenFactors s))) :
    0 ≤ ((d.statistics values).marginalCounts (d.betweenAxes s)).get x := by
  rw [get_marginalCounts hx]
  refine lineKeep_induction (P := (0 ≤ ·)) (fun l _ hl => harmonicMean_nonneg hl)
    (fun y hy => ?_) hx
  rw [Coding.map_fst_flags] at hy
  exact get_counts_nonneg values hy

theorem harmonicN_nonneg (values : Mat ℝ) : 0 ≤ (d.statistics values).harmonicN := by
  refine harmonicMean_nonneg fun x hx => ?_
  rw [Grid.toList_eq] at hx
  obtain ⟨y, hy, rfl⟩ := List.mem_map.mp hx
  exact get_counts_nonneg values (mem_multiIndices.mp hy)

theorem cellWeight_nonneg {values : Mat ℝ} {s : Source} {x : List ℕ}
    (hx : InBounds x (keptShape (d.flags d.betweenFactors s))) : 0 ≤ d.cellWeight values s x := by
  rw [cellWeight]
  split
  · exact harmonicN_nonneg values
  · exact get_marginalCounts_nonneg hx

/-! ## Hypothesis matrices -/

/-- A hypothesis matrix adds up the weighted products of the effect. -/
theorem square_hypothesis (values : Mat ℝ) (s : Source) :
    (d.hypothesis (d.statistics values) s).square values.cols =
      ∑ x ∈ positions (keptShape (d.flags d.betweenFactors s)),
        (d.cellWeight values s x * joined (d.flags d.betweenFactors s)) •
          Mat.products values.cols fun j =>
            (d.pureEffect (d.statistics values) s).get (x ++ [j]) := by
  ext i j
  rw [Mat.square_apply, get_hypothesis i.isLt j.isLt, Matrix.sum_apply]
  exact sum_congr rfl fun x _ => mul_comm _ _

theorem posSemidef_hypothesis (values : Mat ℝ) (s : Source) :
    ((d.hypothesis (d.statistics values) s).square values.cols).PosSemidef := by
  rw [square_hypothesis]
  refine Matrix.posSemidef_sum _ fun x hx => (Mat.posSemidef_products _ _).smul ?_
  exact mul_nonneg (cellWeight_nonneg (mem_positions.mp hx)) (Nat.cast_nonneg _)

/-- The sum of squares of a source between subjects is not negative. -/
theorem hypothesis_nonneg (s : Source) : 0 ≤ (d.hypothesis d.meanStatistics s).get 0 0 := by
  rw [meanStatistics, get_hypothesis Nat.one_pos Nat.one_pos]
  refine sum_nonneg fun x hx => mul_nonneg (mul_self_nonneg _) (mul_nonneg ?_ (Nat.cast_nonneg _))
  exact cellWeight_nonneg (mem_positions.mp hx)

/-! ## Residuals -/

namespace Accepted

variable (hd : d.Accepted)

include hd

theorem rows_scoreResiduals (s : Source) :
    (d.scoreResiduals (d.scoresOf s)).rows = d.subjectCount := by
  rw [scoreResiduals, CellStatistics.rows_residuals]
  exact hd.rows_contrastColumns s

omit hd in
theorem cols_scoreResiduals (s : Source) :
    (d.scoreResiduals (d.scoresOf s)).cols = (d.contrastColumns s).cols := by
  rw [scoreResiduals, CellStatistics.cols_residuals, scoresOf]

/-- What the full model leaves of contrast scores, entry by entry. -/
theorem get_scoreResiduals (s : Source) {i j : ℕ} (hi : i < d.subjectCount)
    (hj : j < (d.contrastColumns s).cols) : (d.scoreResiduals (d.scoresOf s)).get i j =
      (d.contrastColumns s).get i j -
        CellStatistics.cellMean (d.contrastColumns s) d.subjectCells
          (d.subjectCells.getD i 0) j := by
  have hi' : i < d.subjectCells.length := hd.length_subjectCells.symm ▸ hi
  have hrows : (d.contrastColumns s).rows = d.subjectCells.length :=
    (hd.rows_contrastColumns s).trans hd.length_subjectCells.symm
  rw [scoreResiduals, scoresOf, statistics,
    CellStatistics.get_residuals hrows hi' (hd.getD_subjectCells_lt hi) hj]

/-- The residuals of contrast scores sum to zero. -/
theorem sum_scoreResiduals (s : Source) : ∀ j < (d.scoreResiduals (d.scoresOf s)).cols,
    ∑ k ∈ range (d.scoreResiduals (d.scoresOf s)).rows,
      (d.scoreResiduals (d.scoresOf s)).get k j = 0 := by
  intro j hj
  have hzero := CellStatistics.sum_residuals (d.contrastColumns s) hd.lt_of_mem_subjectCells j
  rw [cols_scoreResiduals] at hj
  rw [hd.length_subjectCells] at hzero
  rw [hd.rows_scoreResiduals, ← hzero]
  exact sum_congr rfl fun k hk => hd.get_scoreResiduals s (mem_range.mp hk) hj

/-! ## Two models -/

/-- What the restricted model of a source within subjects adds to the error. -/
theorem sub_within (s : Source) :
    (d.withinRestrictedError s).square (d.fullError s).rows -
      (d.fullError s).square (d.fullError s).rows = (d.subjectCount : ℝ) •
        Mat.products (d.fullError s).rows ((d.scoresWithin s).cells.grandMeans.getD · 0) := by
  rw [sub_eq_iff_eq_add', withinRestrictedError, fullError, scoresWithin, Mat.rows_crossProduct,
    ← hd.rows_scoreResiduals (s.intersection d.withinMask)]
  exact Mat.square_crossProduct_addRow (hd.sum_scoreResiduals _) _

theorem nested_within (s : Source) : (d.withinMatrices s).Nested := by
  have hsub := (Mat.posSemidef_products (d.fullError s).rows
    ((d.scoresWithin s).cells.grandMeans.getD · 0)).smul (Nat.cast_nonneg (α := ℝ) d.subjectCount)
  rw [← hd.sub_within] at hsub
  have hrows : (d.withinRestrictedError s).rows = (d.fullError s).rows := by
    rw [withinRestrictedError, fullError, Mat.rows_crossProduct, Mat.rows_crossProduct,
      Mat.cols_addRow]
  exact ⟨hrows, Mat.posSemidef_crossProduct _, hsub⟩

omit hd in
theorem nested_mixed (s : Source) : (d.mixedMatrices s).Nested := by
  have hsum : (d.mixedRestrictedError s).square (d.fullError s).rows =
      (d.fullError s).square (d.fullError s).rows +
        (d.hypothesis (d.scoresWithin s).cells s).square (d.fullError s).rows :=
    Mat.square_add (Mat.isSquare_crossProduct _) _
  have hsub : ((d.mixedRestrictedError s).square (d.fullError s).rows -
      (d.fullError s).square (d.fullError s).rows).PosSemidef := by
    rw [hsum, add_sub_cancel_left]
    exact posSemidef_hypothesis (d.contrastColumns (s.intersection d.withinMask)) s
  have hrows : (d.mixedRestrictedError s).rows = (d.fullError s).rows := by
    rw [mixedRestrictedError, Mat.rows_add]
  exact ⟨hrows, Mat.posSemidef_crossProduct _, hsub⟩

end Accepted

end Design

end SplitPlot
