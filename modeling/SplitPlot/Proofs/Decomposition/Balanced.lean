import Mathlib
import SplitPlot.Proofs.Decomposition.Centring

/-!
# Effects in a balanced design

A design is balanced when its cells between subjects hold the same number of subjects.  Then every
weight is that number, every centre is the mean of all cell means, and no effect is shifted
(`drift_balanced`): the pure effect of a source is the part of the cell means that belongs to its
factors between subjects (`get_pureEffect_balanced`).

The parts are orthogonal.  So for each column of scores the squares add up: those of the residuals,
the one of the grand mean, and the diagonal entries of the hypothesis matrices of all sets of
factors between subjects (`sum_sq_column`).
-/

namespace SplitPlot

open Finset

namespace Design

/-- Each cell between subjects holds the same number of subjects. -/
def Balanced {K : Type} (d : Design K) (m : ℕ) : Prop :=
  ∀ cell < d.betweenCellCount, d.subjectCells.count cell = m

/-- The sum of squares of a set of factors between subjects. -/
noncomputable def partSs (d : Design ℝ) (m : ℕ) (values : Mat ℝ) (j : ℕ) (B : Finset ℕ) : ℝ :=
  m * (joined (flagged d.levelCount d.betweenFactors B) *
    ∑ x ∈ positions (keptShape (flagged d.levelCount d.betweenFactors B)),
      d.cellPart values j B x ^ 2)

namespace Accepted

variable {d : Design ℝ} (hd : d.Accepted) {m : ℕ} (hm : d.Balanced m)

include hd

/-! ## The size of a cell -/

omit hd in
theorem get_counts_balanced (hm : d.Balanced m) {values : Mat ℝ} {x : List ℕ}
    (hx : InBounds x d.betweenShape) : (d.statistics values).counts.get x = m := by
  rw [statistics, CellStatistics.get_counts hx, hm _ (flatIndex_lt hx)]

include hm

theorem balanced_pos : 0 < m := by
  have hs : 0 < d.subjectCells.length := hd.length_subjectCells ▸ hd.subjectCount_pos
  have hcell := hd.lt_of_mem_subjectCells _ (List.getElem_mem hs)
  rw [← hm _ hcell]
  exact List.count_pos_iff.mpr (List.getElem_mem hs)

theorem lineKeep_counts_balanced {values : Mat ℝ} {B : Finset ℕ} {x : List ℕ}
    (hx : InBounds x (keptShape (flagged d.levelCount d.betweenFactors B))) :
    lineKeep harmonicMean (flagged d.levelCount d.betweenFactors B)
      (d.statistics values).counts.get x = m := by
  refine lineKeep_induction (P := (· = (m : ℝ))) (fun l hl hall => ?_) (fun y hy => ?_) hx
  · rw [map_fst_flagged] at hl
    obtain ⟨f, hf, hlen⟩ := List.mem_map.mp hl
    exact harmonicMean_of_forall_eq
      (List.ne_nil_of_length_pos (hlen ▸ hd.levelCount_between_pos hf)) hall
  · rw [map_fst_flagged] at hy
    exact get_counts_balanced hm hy

theorem get_marginalCounts_balanced {values : Mat ℝ} {s : Source} {x : List ℕ}
    (hx : InBounds x (keptShape (d.flags d.betweenFactors s))) :
    ((d.statistics values).marginalCounts (d.betweenAxes s)).get x = m := by
  rw [get_marginalCounts hx]
  rw [hd.flags_between] at hx ⊢
  exact hd.lineKeep_counts_balanced hm hx

theorem harmonicN_balanced (values : Mat ℝ) : (d.statistics values).harmonicN = m := by
  show harmonicMean (d.statistics values).counts.toList = m
  have hshape : (d.statistics values).counts.shape = d.betweenShape := rfl
  refine harmonicMean_of_forall_eq ?_ fun x hx => ?_
  · rw [Grid.toList_eq, hshape, Ne, List.map_eq_nil_iff, ← List.length_eq_zero_iff,
      length_multiIndices]
    exact hd.betweenCellCount_pos.ne'
  · rw [Grid.toList_eq, hshape] at hx
    obtain ⟨y, hy, rfl⟩ := List.mem_map.mp hx
    exact get_counts_balanced hm (mem_multiIndices.mp hy)

theorem cellWeight_balanced {values : Mat ℝ} {s : Source} {x : List ℕ}
    (hx : InBounds x (keptShape (d.flags d.betweenFactors s))) : d.cellWeight values s x = m := by
  rw [cellWeight]
  split
  · exact hd.harmonicN_balanced hm values
  · exact hd.get_marginalCounts_balanced hm hx

/-! ## The effect of a source -/

/-- Every centre is the mean of all cell means. -/
theorem centre_balanced (values : Mat ℝ) (j : ℕ) (B : Finset ℕ) : d.centre values j B =
    (∑ x ∈ positions d.betweenShape, d.cellMeanAt values j x) / d.betweenCellCount := by
  have hpos : ∀ a ∈ flagged d.levelCount d.betweenFactors B, 0 < a.1 := fun a ha => by
    obtain ⟨f, hf, rfl⟩ := List.mem_map.mp ha
    exact hd.levelCount_between_pos hf
  have hall := joined_mul_sum_lineKeep hpos (d.cellMeanAt values j)
  have hcard := joined_mul_cellCount_keptShape (flagged d.levelCount d.betweenFactors B)
  rw [map_fst_flagged] at hall hcard
  have hsizes : ∀ x ∈ positions (keptShape (flagged d.levelCount d.betweenFactors B)),
      lineKeep harmonicMean (flagged d.levelCount d.betweenFactors B)
        (d.statistics values).counts.get x = m := fun x hx =>
    hd.lineKeep_counts_balanced hm (mem_positions.mp hx)
  have hm' : (m : ℝ) ≠ 0 := Nat.cast_ne_zero.mpr (hd.balanced_pos hm).ne'
  have hjoined : (joined (flagged d.levelCount d.betweenFactors B) : ℝ) ≠ 0 :=
    Nat.cast_ne_zero.mpr (joined_pos hpos).ne'
  rw [centre, sum_congr rfl fun x hx => by rw [hsizes x hx], sum_congr rfl hsizes, ← sum_mul,
    sum_const, card_positions, nsmul_eq_mul, mul_div_mul_right _ _ hm', Coding.betweenCellCount,
    Coding.betweenShape, ← hall, ← hcard, Nat.cast_mul, mul_div_mul_left _ _ hjoined]

/-- No effect is shifted. -/
theorem drift_balanced (values : Mat ℝ) (j : ℕ) {B : Finset ℕ} (hB : B ≠ ∅) :
    d.drift values j B = 0 := by
  have hsigns : ∑ C ∈ B.powerset, (-1 : ℝ) ^ C.card = 0 := by
    exact_mod_cast sum_powerset_neg_one_pow_card_of_nonempty (nonempty_iff_ne_empty.mpr hB)
  simp only [drift, hd.centre_balanced hm, pow_add, ← sum_mul, ← mul_sum, hsigns]
  ring

/-- The pure effect of a source is the part of the cell means that belongs to its factors between
subjects. -/
theorem get_pureEffect_balanced {values : Mat ℝ} {j : ℕ} (hj : j < values.cols) {s : Source}
    (hs : s.toFinset ⊆ range d.factorCount) (hne : d.betweenPart s ≠ ∅) {x : List ℕ}
    (hx : InBounds x (keptShape (d.flags d.betweenFactors s))) :
    (d.pureEffect (d.statistics values) s).get (x ++ [j]) =
      d.cellPart values j (d.betweenPart s) x := by
  rw [hd.get_pureEffect_eq hj hs hne hx, hd.drift_balanced hm values j hne, add_zero]

/-- The diagonal of the hypothesis matrix of a source. -/
theorem get_hypothesis_balanced {values : Mat ℝ} {j : ℕ} (hj : j < values.cols) {s : Source}
    (hs : s.toFinset ⊆ range d.factorCount) (hne : d.betweenPart s ≠ ∅) :
    (d.hypothesis (d.statistics values) s).get j j =
      d.partSs m values j (d.betweenPart s) := by
  rw [get_hypothesis hj hj, partSs, mul_sum, mul_sum, ← hd.flags_between]
  refine sum_congr rfl fun x hx => ?_
  have hx := mem_positions.mp hx
  rw [hd.get_pureEffect_balanced hm hj hs hne hx, hd.cellWeight_balanced hm hx]
  ring

/-! ## The squares of a column -/

omit hd hm in
/-- The cell means of a variable, in the order of the cells. -/
theorem sum_cells_eq {values : Mat ℝ} {j : ℕ} (hj : j < values.cols) (φ : ℝ → ℝ) :
    ∑ cell ∈ range d.betweenCellCount, φ (CellStatistics.cellMean values d.subjectCells cell j) =
      ∑ x ∈ positions d.betweenShape, φ (d.cellMeanAt values j x) := by
  rw [Coding.betweenCellCount, ← sum_range_unravel]
  refine sum_congr rfl fun cell hcell => ?_
  have hin := inBounds_unravel (mem_range.mp hcell)
  rw [cellMeanAt, statistics, CellStatistics.get_means hin hj, flatIndex_unravel
    (mem_range.mp hcell)]

/-- There are as many subjects as the cells hold. -/
theorem subjectCount_balanced : d.subjectCount = d.betweenCellCount * m := by
  have hsum := hd.sum_subjects fun _ => 1
  have hcell : ∀ cell ∈ range d.betweenCellCount,
      ∑ _i ∈ CellStatistics.rowsIn d.subjectCells cell, (1 : ℝ) = m := fun cell hcell => by
    rw [sum_const, CellStatistics.card_rowsIn, hm cell (mem_range.mp hcell), nsmul_eq_mul, mul_one]
  rw [sum_congr rfl hcell, sum_const, sum_const, card_range, card_range, nsmul_eq_mul, nsmul_eq_mul,
    mul_one] at hsum
  exact_mod_cast hsum

/-- The grand mean of a variable is the mean of the cell means. -/
theorem grandMean_balanced {values : Mat ℝ} (hrows : values.rows = d.subjectCount) {j : ℕ}
    (hj : j < values.cols) : (d.statistics values).grandMeans.getD j 0 =
      (∑ x ∈ positions d.betweenShape, d.cellMeanAt values j x) / d.betweenCellCount := by
  have hcount : ∀ cell ∈ range d.betweenCellCount,
      (d.subjectCells.count cell : ℝ) * CellStatistics.cellMean values d.subjectCells cell j =
        m * CellStatistics.cellMean values d.subjectCells cell j := fun cell hcell => by
    rw [hm cell (mem_range.mp hcell)]
  have hsum := CellStatistics.sum_values values hd.lt_of_mem_subjectCells j
  rw [hd.length_subjectCells, sum_congr rfl hcount, ← mul_sum, sum_cells_eq hj fun y => y] at hsum
  have hm' : (m : ℝ) ≠ 0 := Nat.cast_ne_zero.mpr (hd.balanced_pos hm).ne'
  rw [statistics, CellStatistics.getD_grandMeans hj (hrows ▸ hd.subjectCount_pos), hrows, hsum,
    hd.subjectCount_balanced hm, Nat.cast_mul, mul_comm (d.betweenCellCount : ℝ),
    mul_div_mul_left _ _ hm']

/-- The set of no factor stands for the grand mean. -/
theorem partSs_empty {values : Mat ℝ} (hrows : values.rows = d.subjectCount) {j : ℕ}
    (hj : j < values.cols) : d.partSs m values j ∅ =
      d.subjectCount * (d.statistics values).grandMeans.getD j 0 ^ 2 := by
  have hpart : ∀ x ∈ positions (keptShape (flagged d.levelCount d.betweenFactors ∅)),
      d.cellPart values j ∅ x ^ 2 = (d.statistics values).grandMeans.getD j 0 ^ 2 := fun x hx => by
    have hlen : x.length = d.betweenFactors.length := by
      rw [(mem_positions.mp hx).length_eq, length_keptShape, length_flagged]
    rw [cellPart, pureLine_empty _ _ hlen, hd.grandMean_balanced hm hrows hj]
    rfl
  have hcard := joined_mul_cellCount_keptShape (flagged d.levelCount d.betweenFactors ∅)
  rw [map_fst_flagged] at hcard
  rw [partSs, sum_congr rfl hpart, sum_const, card_positions, nsmul_eq_mul,
    ← mul_assoc (joined _ : ℝ), ← Nat.cast_mul, hcard, hd.subjectCount_balanced hm, Nat.cast_mul,
    ← mul_assoc, mul_comm (m : ℝ)]
  rfl

/-- The squares of a column are those of its residuals, the square of its grand mean for each
subject, and the sums of squares of the sets of factors between subjects. -/
theorem sum_sq_column {values : Mat ℝ} (hrows : values.rows = d.subjectCount) {j : ℕ}
    (hj : j < values.cols) :
    ∑ i ∈ range d.subjectCount, values.get i j ^ 2 =
      ∑ i ∈ range d.subjectCount, (values.get i j -
          CellStatistics.cellMean values d.subjectCells (d.subjectCells.getD i 0) j) ^ 2 +
        d.subjectCount * (d.statistics values).grandMeans.getD j 0 ^ 2 +
        ∑ B ∈ d.betweenFactors.toFinset.powerset.erase ∅, d.partSs m values j B := by
  have hcount : ∀ cell ∈ range d.betweenCellCount,
      (d.subjectCells.count cell : ℝ) * CellStatistics.cellMean values d.subjectCells cell j ^ 2 =
        m * CellStatistics.cellMean values d.subjectCells cell j ^ 2 := fun cell hcell => by
    rw [hm cell (mem_range.mp hcell)]
  have hparts : ∑ B ∈ d.betweenFactors.toFinset.powerset, d.partSs m values j B =
      m * ∑ x ∈ positions d.betweenShape, d.cellMeanAt values j x ^ 2 := by
    simp only [partSs, cellPart]
    rw [← mul_sum, sum_joined_mul_sum_sq_pureLine (nodup_betweenFactors d.toCoding)
      (fun f hf => hd.levelCount_between_pos hf) (d.cellMeanAt values j)]
    rfl
  have hsq := CellStatistics.sum_sq_values values hd.lt_of_mem_subjectCells j
  rw [hd.length_subjectCells, sum_congr rfl hcount, ← mul_sum,
    sum_cells_eq hj fun y => y ^ 2] at hsq
  rw [hsq, add_assoc, ← hd.partSs_empty hm hrows hj, add_sum_erase _ _ (empty_mem_powerset _),
    hparts]

end Accepted

end Design

end SplitPlot
