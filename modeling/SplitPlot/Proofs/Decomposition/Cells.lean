import Mathlib
import SplitPlot.Cells
import SplitPlot.Mat.Lemmas
import SplitPlot.Proofs.Decomposition.Positions
import SplitPlot.Proofs.Exact

/-!
# Cells between subjects, in exact arithmetic

The rows of a score matrix fall into cells, and each row is the mean of its cell plus a residual.
What is left of a row does not see the means: the residuals of a cell sum to zero
(`sum_residuals_cell`), so the squares of the scores are the squares of the residuals and of the
means, the mean of a cell counted once for each of its rows (`sum_sq_values`).

None of this asks that the cells be of one size, or that every cell have a row.  A cell without rows
has the sum zero and the size zero, and its mean, which is set to zero, is their quotient in the
real numbers as well.
-/

namespace SplitPlot

open Finset

/-- The sum of all entries of a table. -/
theorem Grid.sum_eq (g : Grid ℝ) : g.sum = ∑ x ∈ positions g.shape, g.get x := by
  rw [Grid.sum, total_eq_sum, Grid.toList_eq, sum_map_multiIndices]

namespace CellStatistics

/-! ## The rows of a cell -/

/-- The rows that stand in a cell, as a set. -/
def rowsIn (cells : List ℕ) (cell : ℕ) : Finset ℕ :=
  (range cells.length).filter fun i => cells.getD i 0 = cell

theorem mem_rowsIn {cells : List ℕ} {cell i : ℕ} :
    i ∈ rowsIn cells cell ↔ i < cells.length ∧ cells.getD i 0 = cell := by
  rw [rowsIn, mem_filter, mem_range]

theorem mem_members {cells : List ℕ} {cell i : ℕ} :
    i ∈ members cells cell ↔ i < cells.length ∧ cells.getD i 0 = cell := by
  rw [members, List.mem_map]
  constructor
  · rintro ⟨⟨c, j⟩, h, rfl⟩
    obtain ⟨hmem, hcell⟩ := List.mem_filter.mp h
    obtain ⟨hj, hget⟩ := List.mk_mem_zipIdx_iff_getElem?.mp hmem |> List.getElem?_eq_some_iff.mp
    rw [beq_iff_eq] at hcell
    exact ⟨hj, by rw [List.getD_eq_getElem _ _ hj, hget, ← hcell]⟩
  · rintro ⟨hi, hcell⟩
    refine ⟨(cell, i), List.mem_filter.mpr ⟨List.mk_mem_zipIdx_iff_getElem?.mpr ?_, ?_⟩, rfl⟩
    · rw [List.getElem?_eq_getElem hi, ← List.getD_eq_getElem _ 0 hi, hcell]
    · exact beq_self_eq_true cell

theorem nodup_members (cells : List ℕ) (cell : ℕ) : (members cells cell).Nodup := by
  have hnodup : (cells.zipIdx.map (·.2)).Nodup := by
    rw [List.zipIdx_map_snd]
    exact List.nodup_range'
  exact hnodup.sublist (List.Sublist.map _ List.filter_sublist)

theorem toFinset_members (cells : List ℕ) (cell : ℕ) :
    (members cells cell).toFinset = rowsIn cells cell := by
  ext i
  rw [List.mem_toFinset, mem_members, mem_rowsIn]

theorem sum_map_members (cells : List ℕ) (cell : ℕ) (g : ℕ → ℝ) :
    ((members cells cell).map g).sum = ∑ i ∈ rowsIn cells cell, g i := by
  rw [← toFinset_members, List.sum_toFinset g (nodup_members cells cell)]

theorem length_members (cells : List ℕ) (cell : ℕ) :
    (members cells cell).length = cells.count cell := by
  rw [members, List.length_map, ← List.countP_eq_length_filter, List.count]
  conv_rhs => rw [← List.zipIdx_map_fst 0 cells]
  rw [List.countP_map]
  rfl

theorem card_rowsIn (cells : List ℕ) (cell : ℕ) : (rowsIn cells cell).card = cells.count cell := by
  rw [← toFinset_members, List.toFinset_card_of_nodup (nodup_members cells cell), length_members]

/-- A sum over all rows is taken cell by cell. -/
theorem sum_rows {cells : List ℕ} {n : ℕ} (hcells : ∀ cell ∈ cells, cell < n) (g : ℕ → ℝ) :
    ∑ i ∈ range cells.length, g i = ∑ cell ∈ range n, ∑ i ∈ rowsIn cells cell, g i := by
  refine (sum_fiberwise_of_maps_to (fun i hi => ?_) g).symm
  have hi := mem_range.mp hi
  rw [mem_range, List.getD_eq_getElem _ _ hi]
  exact hcells _ (List.getElem_mem hi)

/-! ## Means and residuals -/

variable (values : Mat ℝ) (cells shape : List ℕ)

theorem cellMean_eq (cell j : ℕ) : cellMean values cells cell j =
    (∑ i ∈ rowsIn cells cell, values.get i j) / cells.count cell := by
  rw [cellMean]
  split
  · next h =>
    have hlen := length_members cells cell
    rw [List.isEmpty_iff.mp h] at hlen
    rw [← hlen, List.length_nil, Nat.cast_zero, div_zero]
  · rw [mean_eq, sum_map_members, List.length_map, length_members]

variable {values cells shape}

theorem get_flatMeans {cell j : ℕ} (hcell : cell < cellCount shape) (hj : j < values.cols) :
    (ofRows values cells shape).flatMeans.get cell j = cellMean values cells cell j :=
  Mat.get_ofFn _ hcell hj

theorem get_means {index : List ℕ} {j : ℕ} (hin : InBounds index shape) (hj : j < values.cols) :
    (ofRows values cells shape).means.get (index ++ [j]) =
      cellMean values cells (flatIndex index shape) j := by
  have hin' : InBounds (index ++ [j]) (shape ++ [values.cols]) :=
    (inBounds_append hin.length_eq).mpr ⟨hin, hj, trivial⟩
  show (Grid.ofFn (shape ++ [values.cols]) _).get _ = _
  rw [Grid.get_ofFn _ hin', List.dropLast_concat, List.getLastD_concat]
  exact Mat.get_ofFn _ (flatIndex_lt hin) hj

theorem get_counts {index : List ℕ} (hin : InBounds index shape) :
    (ofRows values cells shape).counts.get index = (cells.count (flatIndex index shape) : ℝ) := by
  show (Grid.ofFn shape _).get _ = _
  rw [Grid.get_ofFn _ hin, length_members]

theorem get_residuals (hrows : values.rows = cells.length) {i j : ℕ} (hi : i < cells.length)
    (hcell : cells.getD i 0 < cellCount shape) (hj : j < values.cols) :
    ((ofRows values cells shape).residuals values cells).get i j =
      values.get i j - cellMean values cells (cells.getD i 0) j := by
  rw [residuals, Mat.get_ofFn _ (hrows ▸ hi) hj, List.getElem?_eq_getElem hi]
  show values.get i j - (ofRows values cells shape).flatMeans.get _ j = _
  rw [← List.getD_eq_getElem _ 0 hi, get_flatMeans hcell hj]

/-- The sum of a cell is its mean, once for each row. -/
theorem count_mul_cellMean (cell j : ℕ) : cells.count cell * cellMean values cells cell j =
    ∑ i ∈ rowsIn cells cell, values.get i j := by
  rw [cellMean_eq]
  by_cases h : (cells.count cell : ℝ) = 0
  · have hempty : rowsIn cells cell = ∅ := by
      rw [← Finset.card_eq_zero, card_rowsIn]
      exact_mod_cast h
    rw [h, zero_mul, hempty, sum_empty]
  · rw [mul_div_cancel₀ _ h]

/-- The residuals of a cell sum to zero. -/
theorem sum_residuals_cell (cell j : ℕ) :
    ∑ i ∈ rowsIn cells cell, (values.get i j - cellMean values cells (cells.getD i 0) j) = 0 := by
  have hmean : ∀ i ∈ rowsIn cells cell,
      values.get i j - cellMean values cells (cells.getD i 0) j =
        values.get i j - cellMean values cells cell j := fun i hi => by
    rw [(mem_rowsIn.mp hi).2]
  rw [sum_congr rfl hmean, sum_sub_distrib, sum_const, nsmul_eq_mul, card_rowsIn,
    count_mul_cellMean, sub_self]

/-- The products of two variables about any two centres are the products of the residuals and, the
mean of a cell counted once for each of its rows, those of the means. -/
theorem sum_mul_values (values : Mat ℝ) {n : ℕ} (hcells : ∀ cell ∈ cells, cell < n) (i j : ℕ)
    (a b : ℝ) :
    ∑ k ∈ range cells.length, (values.get k i - a) * (values.get k j - b) =
      ∑ k ∈ range cells.length, (values.get k i - cellMean values cells (cells.getD k 0) i) *
          (values.get k j - cellMean values cells (cells.getD k 0) j) +
        ∑ cell ∈ range n, cells.count cell *
          ((cellMean values cells cell i - a) * (cellMean values cells cell j - b)) := by
  rw [sum_rows hcells, sum_rows hcells, ← sum_add_distrib]
  refine sum_congr rfl fun cell _ => ?_
  -- a mixed product has a factor that is the same for all rows of the cell
  have hcell : ∀ k ∈ rowsIn cells cell, (values.get k i - a) * (values.get k j - b) =
      (values.get k i - cellMean values cells (cells.getD k 0) i) *
          (values.get k j - cellMean values cells (cells.getD k 0) j) +
        ((cellMean values cells cell j - b) *
            (values.get k i - cellMean values cells (cells.getD k 0) i) +
          (cellMean values cells cell i - a) *
            (values.get k j - cellMean values cells (cells.getD k 0) j)) +
        (cellMean values cells cell i - a) * (cellMean values cells cell j - b) := fun k hk => by
    rw [(mem_rowsIn.mp hk).2]
    ring
  rw [sum_congr rfl hcell, sum_add_distrib, sum_add_distrib, sum_add_distrib, ← mul_sum, ← mul_sum,
    sum_residuals_cell, sum_residuals_cell, mul_zero, mul_zero, add_zero, add_zero, sum_const,
    nsmul_eq_mul, card_rowsIn]

/-- The squares of the scores are the squares of the residuals and of the means. -/
theorem sum_sq_values (values : Mat ℝ) {n : ℕ} (hcells : ∀ cell ∈ cells, cell < n) (j : ℕ) :
    ∑ i ∈ range cells.length, values.get i j ^ 2 =
      ∑ i ∈ range cells.length, (values.get i j - cellMean values cells (cells.getD i 0) j) ^ 2 +
        ∑ cell ∈ range n, cells.count cell * cellMean values cells cell j ^ 2 := by
  have hproducts := sum_mul_values values hcells j j 0 0
  simp only [sub_zero, ← pow_two] at hproducts
  exact hproducts

theorem sum_residuals (values : Mat ℝ) {n : ℕ} (hcells : ∀ cell ∈ cells, cell < n) (j : ℕ) :
    ∑ i ∈ range cells.length, (values.get i j - cellMean values cells (cells.getD i 0) j) = 0 := by
  rw [sum_rows hcells]
  exact sum_eq_zero fun cell _ => sum_residuals_cell cell j

theorem sum_values (values : Mat ℝ) {n : ℕ} (hcells : ∀ cell ∈ cells, cell < n) (j : ℕ) :
    ∑ i ∈ range cells.length, values.get i j =
      ∑ cell ∈ range n, cells.count cell * cellMean values cells cell j := by
  rw [sum_rows hcells]
  exact sum_congr rfl fun cell _ => (count_mul_cellMean cell j).symm

/-- The grand mean of a variable. -/
theorem getD_grandMeans {j : ℕ} (hj : j < values.cols) (hrows : 0 < values.rows) :
    (ofRows values cells shape).grandMeans.getD j 0 =
      (∑ i ∈ range values.rows, values.get i j) / values.rows := by
  have hj' : j < ((List.range values.cols).map fun j =>
      total (values.col j) / ((max values.rows 1 : ℕ) : ℝ)).length := by
    rwa [List.length_map, List.length_range]
  show ((List.range values.cols).map fun j =>
    total (values.col j) / ((max values.rows 1 : ℕ) : ℝ)).getD j 0 = _
  rw [List.getD_eq_getElem _ _ hj', List.getElem_map, List.getElem_range, total_eq_sum, Mat.col,
    sum_map_range, max_eq_left hrows]

end CellStatistics

/-- A sum over the subjects of a design is taken cell by cell. -/
theorem Design.Accepted.sum_subjects {d : Design ℝ} (hd : d.Accepted) (g : ℕ → ℝ) :
    ∑ i ∈ range d.subjectCount, g i = ∑ cell ∈ range d.betweenCellCount,
      ∑ i ∈ CellStatistics.rowsIn d.subjectCells cell, g i := by
  rw [← CellStatistics.sum_rows hd.lt_of_mem_subjectCells, hd.length_subjectCells]

end SplitPlot
