import Mathlib
import SplitPlot.Proofs.Decomposition.Cells
import SplitPlot.Proofs.Mat.CrossProduct

/-!
# Cross products about the grand means

The full model predicts a row of a score matrix by the means of its cell, and the model without any
effect predicts it by the grand means.  What the second one leaves is what the first one leaves and
what lies between the two predictions: the cross products of the rows about the grand means are
those of the residuals and, for each cell, its size times the products of what its means deviate
from the grand means (`crossProduct_centred`).  Every error term of an analysis is one side of this
split.

## Any rows in any cells

This is a statement about `CellStatistics.compute` and not about designs.  The cells may be of
different sizes and some may be empty, there may be no row at all, and the variables may be
dependent.  A cell without rows has the size zero, so what its means are set to is of no
consequence.

## The two readings of a cell

The sizes and the means are read at the position of a cell, the residuals are formed with the row of
means that has the number of the cell.  Both are the same means (`get_means_eq_get_flatMeans`),
which is what lets a sum over positions and a sum over numbers meet.
-/

namespace SplitPlot

open Finset

namespace CellStatistics

/-! ## Deviations from the grand means -/

/-- The rows of a score matrix less the grand means. -/
def centred {K : Type} [Scalar K] (c : CellStatistics K) (values : Mat K) : Mat K :=
  .ofFn values.rows values.cols fun i j => values.get i j - c.grandMeans.getD j 0

/-- The products of what the means of the cells deviate from the grand means, those of a cell once
for each of its rows. -/
noncomputable def meanProducts (c : CellStatistics ℝ) : Mat ℝ :=
  .ofFn c.variableCount c.variableCount fun i j => ∑ x ∈ positions c.counts.shape,
    c.counts.get x * ((c.means.get (x ++ [i]) - c.grandMeans.getD i 0) *
      (c.means.get (x ++ [j]) - c.grandMeans.getD j 0))

section Statistics

variable {values : Mat ℝ} {cells shape : List ℕ}

@[simp] theorem variableCount_ofRows : (ofRows values cells shape).variableCount = values.cols := by
  rw [variableCount, ofRows, List.length_map, List.length_range]

/-- The means at a position are those with the number of the position. -/
theorem get_means_eq_get_flatMeans {x : List ℕ} (hx : InBounds x shape) {j : ℕ}
    (hj : j < values.cols) : (ofRows values cells shape).means.get (x ++ [j]) =
      (ofRows values cells shape).flatMeans.get (flatIndex x shape) j := by
  rw [get_means hx hj, get_flatMeans (flatIndex_lt hx) hj]

variable (values cells shape) in
/-- A sum over the numbers of the cells, each taken as often as the cell has rows, is one over their
positions. -/
theorem sum_count_mul (φ : ℕ → ℝ) :
    ∑ cell ∈ range (cellCount shape), cells.count cell * φ cell =
      ∑ x ∈ positions shape, (ofRows values cells shape).counts.get x * φ (flatIndex x shape) := by
  rw [← sum_range_unravel]
  refine sum_congr rfl fun cell hcell => ?_
  have hcell := mem_range.mp hcell
  rw [get_counts (inBounds_unravel hcell), flatIndex_unravel hcell]

variable (hrows : values.rows = cells.length) (hcells : ∀ cell ∈ cells, cell < cellCount shape)

include hcells

/-- Every row stands in one cell. -/
theorem sum_counts : (ofRows values cells shape).counts.sum = cells.length := by
  have hcount := sum_count_mul values cells shape fun _ => 1
  have hall := sum_rows hcells fun _ => 1
  simp only [mul_one, sum_const, card_range, card_rowsIn, nsmul_eq_mul] at hcount hall
  rw [Grid.sum_eq, hall]
  exact hcount.symm

include hrows

theorem get_residuals_of_lt {i j : ℕ} (hi : i < values.rows) (hj : j < values.cols) :
    ((ofRows values cells shape).residuals values cells).get i j =
      values.get i j - cellMean values cells (cells.getD i 0) j := by
  have hi : i < cells.length := hrows ▸ hi
  refine get_residuals hrows hi (hcells _ ?_) hj
  rw [List.getD_eq_getElem _ _ hi]
  exact List.getElem_mem hi

/-- The residuals of a cell sum to zero in every column. -/
theorem sum_residuals_rowsIn (cell : ℕ) {j : ℕ} (hj : j < values.cols) :
    ∑ i ∈ rowsIn cells cell, ((ofRows values cells shape).residuals values cells).get i j = 0 := by
  have hentry : ∀ i ∈ rowsIn cells cell,
      ((ofRows values cells shape).residuals values cells).get i j =
        values.get i j - cellMean values cells (cells.getD i 0) j := fun i hi =>
    get_residuals_of_lt hrows hcells (hrows ▸ (mem_rowsIn.mp hi).1) hj
  rw [sum_congr rfl hentry, sum_residuals_cell]

omit hcells hrows

theorem get_centred {i j : ℕ} (hi : i < values.rows) (hj : j < values.cols) :
    ((ofRows values cells shape).centred values).get i j =
      values.get i j - (ofRows values cells shape).grandMeans.getD j 0 := Mat.get_ofFn _ hi hj

/-- About the grand means every column sums to zero. -/
theorem sum_centred {j : ℕ} (hj : j < values.cols) :
    ∑ i ∈ range values.rows, ((ofRows values cells shape).centred values).get i j = 0 := by
  rw [sum_congr rfl fun i hi => get_centred (mem_range.mp hi) hj]
  rcases Nat.eq_zero_or_pos values.rows with h0 | hpos
  · rw [h0, range_zero, sum_empty]
  · rw [sum_sub_distrib, sum_const, card_range, nsmul_eq_mul, getD_grandMeans hj hpos,
      mul_div_cancel₀ _ (Nat.cast_ne_zero.mpr hpos.ne'), sub_self]

/-- An entry of the products of the means, as a sum over the numbers of the cells. -/
theorem get_meanProducts {i j : ℕ} (hi : i < values.cols) (hj : j < values.cols) :
    (ofRows values cells shape).meanProducts.get i j =
      ∑ cell ∈ range (cellCount shape), cells.count cell *
        ((cellMean values cells cell i - (ofRows values cells shape).grandMeans.getD i 0) *
          (cellMean values cells cell j - (ofRows values cells shape).grandMeans.getD j 0)) := by
  rw [sum_count_mul values cells shape fun cell =>
      (cellMean values cells cell i - (ofRows values cells shape).grandMeans.getD i 0) *
        (cellMean values cells cell j - (ofRows values cells shape).grandMeans.getD j 0),
    meanProducts, variableCount_ofRows, Mat.get_ofFn _ hi hj]
  refine sum_congr rfl fun x hx => ?_
  have hx := mem_positions.mp hx
  rw [get_means hx hi, get_means hx hj]

include hcells hrows

/-- An entry of the cross products about the grand means. -/
theorem get_crossProduct_centred {i j : ℕ} (hi : i < values.cols) (hj : j < values.cols) :
    ((ofRows values cells shape).centred values).crossProduct.get i j =
      ((ofRows values cells shape).residuals values cells).crossProduct.get i j +
        (ofRows values cells shape).meanProducts.get i j := by
  have hcentred : ∀ k ∈ range values.rows,
      ((ofRows values cells shape).centred values).get k i *
          ((ofRows values cells shape).centred values).get k j =
        (values.get k i - (ofRows values cells shape).grandMeans.getD i 0) *
          (values.get k j - (ofRows values cells shape).grandMeans.getD j 0) := fun k hk => by
    rw [get_centred (mem_range.mp hk) hi, get_centred (mem_range.mp hk) hj]
  have hresiduals : ∀ k ∈ range values.rows,
      ((ofRows values cells shape).residuals values cells).get k i *
          ((ofRows values cells shape).residuals values cells).get k j =
        (values.get k i - cellMean values cells (cells.getD k 0) i) *
          (values.get k j - cellMean values cells (cells.getD k 0) j) := fun k hk => by
    rw [get_residuals_of_lt hrows hcells (mem_range.mp hk) hi,
      get_residuals_of_lt hrows hcells (mem_range.mp hk) hj]
  rw [get_meanProducts hi hj, Mat.get_crossProduct_eq_sum (a := centred _ _) hi hj,
    Mat.get_crossProduct_eq_sum (a := residuals _ _ _) hi hj]
  show ∑ k ∈ range values.rows, _ = ∑ k ∈ range values.rows, _ + _
  rw [sum_congr rfl hcentred, sum_congr rfl hresiduals, hrows]
  exact sum_mul_values values hcells i j _ _

end Statistics

/-- **The split of the cross products.**  Rows that stand in cells, of any sizes and some of them
perhaps empty, have statistics.  The size of a cell is the number of its rows, and the sizes add up
to the number of all rows; the residuals of a cell with rows sum to zero in every column; the means
at a position are those with the number of the position; about the grand means every column sums to
zero.  The cross products about the grand means are those of the residuals and the products of the
deviations of the means of the cells, as often as the cells have rows. -/
theorem crossProduct_centred {values : Mat ℝ} {cells shape : List ℕ}
    (hrows : values.rows = cells.length) (hcells : ∀ cell ∈ cells, cell < cellCount shape) :
    ∃ c, compute values cells shape = .ok c ∧ c.counts.shape = shape ∧
      (∀ x, InBounds x shape → c.counts.get x = cells.count (flatIndex x shape)) ∧
      c.counts.sum = values.rows ∧
      (∀ cell ∈ cells, ∀ j < values.cols,
        ∑ i ∈ rowsIn cells cell, (c.residuals values cells).get i j = 0) ∧
      (∀ x, InBounds x shape → ∀ j < values.cols,
        c.means.get (x ++ [j]) = c.flatMeans.get (flatIndex x shape) j) ∧
      (∀ j < values.cols, ∑ i ∈ range values.rows, (c.centred values).get i j = 0) ∧
      (c.centred values).crossProduct =
        (c.residuals values cells).crossProduct + c.meanProducts := by
  refine ⟨ofRows values cells shape, if_pos hrows, rfl, fun x hx => get_counts hx, ?_,
    fun cell _ j hj => sum_residuals_rowsIn hrows hcells cell hj,
    fun x hx j hj => get_means_eq_get_flatMeans hx hj, fun j hj => sum_centred hj, ?_⟩
  · rw [sum_counts hcells, hrows]
  · refine Mat.ext_get rfl rfl fun i j hi hj => ?_
    have hi : i < values.cols := hi
    have hj : j < values.cols := hj
    rw [get_crossProduct_centred hrows hcells hi hj,
      Mat.get_add (a := Mat.crossProduct (residuals _ _ _)) hi hj]

/-- Three rows of two variables. -/
noncomputable def threeRows : Mat ℝ := .ofFn 3 2 fun i j => (i + 1 : ℝ) ^ (j + 1)

/-- Three rows in two of four cells, two of them in the last one. -/
theorem crossProduct_threeRows : threeRows.rows = [3, 0, 3].length ∧
    (∀ cell ∈ [3, 0, 3], cell < cellCount [2, 2]) ∧
    ∃ c, compute threeRows [3, 0, 3] [2, 2] = .ok c ∧ c.counts.get [1, 1] = 2 ∧
      c.counts.get [0, 1] = 0 ∧ c.counts.sum = 3 ∧
      ∑ i ∈ rowsIn [3, 0, 3] 3, (c.residuals threeRows [3, 0, 3]).get i 1 = 0 ∧
      c.means.get [1, 1, 0] = c.flatMeans.get 3 0 ∧
      (c.centred threeRows).crossProduct =
        (c.residuals threeRows [3, 0, 3]).crossProduct + c.meanProducts := by
  have hcells : ∀ cell ∈ [3, 0, 3], cell < cellCount [2, 2] := by decide
  obtain ⟨c, hc, -, hcounts, hsum, hresiduals, hmeans, -, hsplit⟩ :=
    crossProduct_centred (show threeRows.rows = [3, 0, 3].length from rfl) hcells
  refine ⟨rfl, hcells, c, hc, ?_, ?_, ?_, hresiduals 3 (by decide) 1 (by decide),
    hmeans [1, 1] (mem_positions.mp (by decide)) 0 (by decide), hsplit⟩
  · exact (hcounts [1, 1] (mem_positions.mp (by decide))).trans Nat.cast_two
  · exact (hcounts [0, 1] (mem_positions.mp (by decide))).trans Nat.cast_zero
  · exact hsum.trans Nat.cast_three

end CellStatistics

end SplitPlot
