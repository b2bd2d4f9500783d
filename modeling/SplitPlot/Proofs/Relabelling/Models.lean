import Mathlib
import SplitPlot.Proofs.Mat.Congruent
import SplitPlot.Proofs.Nesting
import SplitPlot.Proofs.Relabelling.Designs

/-!
# The models of relabelled designs

A source is analysed on a matrix of scores with one row for each subject.  The matrices of two
relabelled designs have their rows in another order, and a row of the second is a linear image of
the row of the first plus a fixed row (`Relabelling.Carries`).

What is formed from the scores is then carried along, one step after another: the means of the
cells, their margins and centres, the effects (from which the fixed row has gone, since margin and
centre have it in common), the residuals and the grand means.  So the hypothesis and error matrices
of the second design are those of the first in other variables (`congruent_hypothesis`,
`congruent_residuals`, `congruent_restored`).
-/

namespace SplitPlot

open Finset

namespace Design

theorem cellMeanAt_eq_div {d : Design ℝ} {values : Mat ℝ} {x : List ℕ}
    (hx : InBounds x d.betweenShape) {j : ℕ} (hj : j < values.cols) :
    d.cellMeanAt values j x =
      (∑ i ∈ CellStatistics.rowsIn d.subjectCells (flatIndex x d.betweenShape), values.get i j) /
        d.subjectCells.count (flatIndex x d.betweenShape) := by
  rw [cellMeanAt, statistics, CellStatistics.get_means hx hj, CellStatistics.cellMean_eq]

/-- A residual is a score less the mean of the subject's cell. -/
theorem Accepted.get_residuals {d : Design ℝ} (hd : d.Accepted) {values : Mat ℝ}
    (hrows : values.rows = d.subjectCount) {i j : ℕ} (hi : i < d.subjectCount)
    (hj : j < values.cols) :
    ((d.statistics values).residuals values d.subjectCells).get i j =
      values.get i j - d.cellMeanAt values j (d.placement i) := by
  have hlen := hd.length_subjectCells
  rw [statistics, CellStatistics.get_residuals (hrows.trans hlen.symm) (hi.trans_eq hlen.symm)
    (hd.getD_subjectCells_lt hi) hj, hd.getD_subjectCells hi, cellMeanAt, statistics,
    CellStatistics.get_means (hd.coherent.inBounds_placement hi) hj]

namespace Relabelling

variable {d d' : Design ℝ} (r : Relabelling d d')

/-- The rows of one matrix are the images of the rows of another, which belong to the same
subjects. -/
structure Carries (q : ℕ → ℕ → ℝ) (c : ℕ → ℝ) (values values' : Mat ℝ) : Prop where
  rows_eq : values.rows = d.subjectCount
  rows_eq' : values'.rows = d'.subjectCount
  cols_eq : values'.cols = values.cols
  get_eq : ∀ i < d.subjectCount, ∀ j < values.cols, values'.get (r.subject i) j =
    ∑ k ∈ range values.cols, q j k * values.get i k + c j

variable {r} in
theorem Carries.congr {q q' : ℕ → ℕ → ℝ} {c : ℕ → ℝ} {values values' : Mat ℝ}
    (h : r.Carries q c values values') (hq : ∀ j < values.cols, ∀ k < values.cols, q j k = q' j k) :
    r.Carries q' c values values' where
  rows_eq := h.rows_eq
  rows_eq' := h.rows_eq'
  cols_eq := h.cols_eq
  get_eq i hi j hj := by
    rw [h.get_eq i hi j hj]
    exact congrArg (· + c j) (sum_congr rfl fun k hk => by rw [hq j hj k (mem_range.mp hk)])

/-! ## Sizes -/

section Sizes

variable {r} (hd : d.Accepted) (hd' : d'.Accepted) (values values' : Mat ℝ)

include hd hd'

theorem counts_move {x : List ℕ} (hx : x ∈ d.cellPositions) :
    (d'.statistics values').counts.get (r.between.move x) = (d.statistics values).counts.get x := by
  have hin : InBounds x d.betweenShape := mem_positions.mp hx
  have hin' : InBounds (r.between.move x) d'.betweenShape :=
    mem_positions.mp (r.between.move_mem hx)
  rw [statistics, statistics, CellStatistics.get_counts hin', CellStatistics.get_counts hin]
  exact congrArg Nat.cast (r.count_move hd hd' hx)

theorem marginSize_move {S : Finset ℕ} {x : List ℕ} (hx : x ∈ d.cellPositions) :
    d'.marginSize values' (S.image r.factor) (r.between.move x) = d.marginSize values S x := by
  have hpos : ∀ y ∈ d'.cellPositions, 0 < (d'.statistics values').counts.get y :=
    fun y hy => hd'.get_counts_pos (mem_positions.mp hy)
  have hmove := r.between.lineKeep_harmonicMean_move (S := S) hx hpos
  refine hmove.trans (inv_injective ?_)
  rw [marginSize, inv_lineKeep_harmonicMean hx fun y hy => hpos _ (r.between.move_mem hy),
    inv_lineKeep_harmonicMean hx fun y hy => hd.get_counts_pos (mem_positions.mp hy)]
  exact lineKeep_congr r.between.nodup hx fun y hy => by rw [counts_move hd hd' values values' hy]

include r in
theorem harmonicN_move : (d'.statistics values').harmonicN = (d.statistics values).harmonicN := by
  rw [hd.harmonicN_eq_div, hd'.harmonicN_eq_div, r.betweenCellCount_eq, cellPositions,
    r.between.sum_move]
  refine congrArg (_ / ·) (sum_congr rfl fun x hx => ?_)
  rw [counts_move hd hd' values values' hx]

theorem weightAt_move {s s' : Source} (hs' : s'.toFinset = s.toFinset.image r.factor) {x : List ℕ}
    (hx : x ∈ d.cellPositions) :
    d'.weightAt values' s' (r.between.move x) = d.weightAt values s x := by
  rw [weightAt, weightAt, r.betweenPart_image hs', marginSize_move hd hd' values values' hx,
    harmonicN_move (r := r) hd hd' values values',
    if_congr (r.eq_fullSource_iff hd hd' hs') rfl rfl]

end Sizes

/-! ## Means and effects -/

namespace Carries

variable {r} {q : ℕ → ℕ → ℝ} {c : ℕ → ℝ} {values values' : Mat ℝ}
  (h : r.Carries q c values values') (hd : d.Accepted) (hd' : d'.Accepted)

include h hd hd'

theorem cellMeanAt_move {j : ℕ} (hj : j < values.cols) {x : List ℕ} (hx : x ∈ d.cellPositions) :
    d'.cellMeanAt values' j (r.between.move x) =
      ∑ k ∈ range values.cols, q j k * d.cellMeanAt values k x + c j := by
  have hin : InBounds x d.betweenShape := mem_positions.mp hx
  have hin' : InBounds (r.between.move x) d'.betweenShape :=
    mem_positions.mp (r.between.move_mem hx)
  have hcount : (d.subjectCells.count (flatIndex x d.betweenShape) : ℝ) ≠ 0 := by
    have hpos : 0 < (d.statistics values).counts.get x := hd.get_counts_pos hin
    rw [statistics, CellStatistics.get_counts hin] at hpos
    exact hpos.ne'
  have hrow : ∀ i ∈ CellStatistics.rowsIn d.subjectCells (flatIndex x d.betweenShape),
      values'.get (r.subject i) j = ∑ k ∈ range values.cols, q j k * values.get i k + c j :=
    fun i hi => h.get_eq i
      ((CellStatistics.mem_rowsIn.mp hi).1.trans_eq hd.length_subjectCells) j hj
  rw [cellMeanAt_eq_div hin' (hj.trans_eq h.cols_eq.symm), r.count_move hd hd' hx,
    r.sum_rowsIn_move hd hd' hx, sum_congr rfl hrow, sum_add_distrib, sum_const,
    CellStatistics.card_rowsIn, nsmul_eq_mul, add_div, mul_div_cancel_left₀ _ hcount, sum_comm,
    sum_div]
  refine congrArg (· + c j) (sum_congr rfl fun k hk => ?_)
  rw [cellMeanAt_eq_div hin (mem_range.mp hk), ← mul_sum, mul_div_assoc]

theorem margin_move {j : ℕ} (hj : j < values.cols) {S : Finset ℕ} {x : List ℕ}
    (hx : x ∈ d.cellPositions) : d'.margin values' j (S.image r.factor) (r.between.move x) =
      ∑ k ∈ range values.cols, q j k * d.margin values k S x + c j := by
  have hlinear := isLinearMap_lineKeep (flagged d.levelCount d.betweenFactors S) x
  have hmove := r.between.lineKeep_mean_move (S := S) hx (d'.cellMeanAt values' j)
  refine hmove.trans ?_
  rw [lineKeep_congr r.between.nodup hx fun y hy => h.cellMeanAt_move hd hd' hj hy]
  refine (hlinear.map_add (fun y => ∑ k ∈ range values.cols, q j k * d.cellMeanAt values k y)
    fun _ => c j).trans ?_
  rw [map_sum_mul hlinear, lineKeep_const r.between.nodup hx]
  rfl

theorem centre_move {j : ℕ} (hj : j < values.cols) (S : Finset ℕ) :
    d'.centre values' j (S.image r.factor) =
      ∑ k ∈ range values.cols, q j k * d.centre values k S + c j := by
  have hpos : ∑ x ∈ d.cellPositions, d.marginSize values S x ≠ 0 := by
    obtain ⟨x, hx⟩ : d.cellPositions.Nonempty := by
      rw [← card_pos, cellPositions, card_positions]
      exact hd.betweenCellCount_pos
    exact (sum_pos (fun y hy => hd.marginSize_pos S hy) ⟨x, hx⟩).ne'
  have hsizes : ∑ y ∈ d'.cellPositions, d'.marginSize values' (S.image r.factor) y =
      ∑ x ∈ d.cellPositions, d.marginSize values S x := by
    refine (r.between.sum_move _).trans ?_
    exact sum_congr rfl fun x hx => marginSize_move hd hd' values values' hx
  have hmargins : ∑ y ∈ d'.cellPositions, d'.margin values' j (S.image r.factor) y *
      d'.marginSize values' (S.image r.factor) y =
        ∑ k ∈ range values.cols, q j k *
          ∑ x ∈ d.cellPositions, d.margin values k S x * d.marginSize values S x +
        c j * ∑ x ∈ d.cellPositions, d.marginSize values S x := by
    have hcell : ∀ x ∈ d.cellPositions,
        d'.margin values' j (S.image r.factor) (r.between.move x) *
          d'.marginSize values' (S.image r.factor) (r.between.move x) =
        ∑ k ∈ range values.cols, q j k * (d.margin values k S x * d.marginSize values S x) +
          c j * d.marginSize values S x := fun x hx => by
      rw [h.margin_move hd hd' hj hx, marginSize_move hd hd' values values' hx, add_mul, sum_mul]
      simp only [mul_assoc]
    refine (r.between.sum_move _).trans ((sum_congr rfl hcell).trans ?_)
    rw [sum_add_distrib, ← mul_sum, sum_comm]
    simp only [mul_sum]
  rw [hd'.centre_eq_div, hsizes, hmargins, add_div, mul_div_cancel_right₀ _ hpos, sum_div]
  refine congrArg (· + c j) (sum_congr rfl fun k _ => ?_)
  rw [hd.centre_eq_div, mul_div_assoc]

/-- Effects are carried along without the fixed row. -/
theorem effectAt_move {j : ℕ} (hj : j < values.cols) {B : Finset ℕ} {x : List ℕ}
    (hx : x ∈ d.cellPositions) : d'.effectAt values' j (B.image r.factor) (r.between.move x) =
      ∑ k ∈ range values.cols, q j k * d.effectAt values k B x := by
  have hinj : ∀ S : Finset ℕ, (S.image r.factor).card = S.card := fun S =>
    card_image_of_injective S r.factor.injective
  have hterm : ∀ S ∈ B.powerset, (-1 : ℝ) ^ ((B.image r.factor).card + (S.image r.factor).card) *
      (d'.margin values' j (S.image r.factor) (r.between.move x) -
        d'.centre values' j (S.image r.factor)) =
      ∑ k ∈ range values.cols, q j k * ((-1) ^ (B.card + S.card) *
        (d.margin values k S x - d.centre values k S)) := by
    intro S _
    rw [hinj, hinj, h.margin_move hd hd' hj hx, h.centre_move hd hd' hj, add_sub_add_right_eq_sub,
      ← sum_sub_distrib, mul_sum]
    exact sum_congr rfl fun k _ => by ring
  rw [effectAt, sum_powerset_image r.factor.injective, sum_congr rfl hterm, sum_comm]
  refine sum_congr rfl fun k _ => ?_
  rw [effectAt, mul_sum]

/-! ## Matrices -/

section Source

variable {s s' : Source} (hs' : s'.toFinset = s.toFinset.image r.factor)
  (hs : s.toFinset ⊆ range d.factorCount) (hne : d.betweenPart s ≠ ∅)

include hs' hs hne

/-- The hypothesis matrices of corresponding sources are congruent. -/
theorem congruent_hypothesis : Mat.Congruent values.cols q (d.hypothesis (d.statistics values) s)
    (d'.hypothesis (d'.statistics values') s') := by
  have hs'' := r.subset_range_image hs' hs
  have hne' : d'.betweenPart s' ≠ ∅ := by
    rw [r.betweenPart_image hs', Ne, image_eq_empty]
    exact hne
  refine Mat.congruent_of_products (T := d.cellPositions) (w := d.weightAt values s)
    (u := fun x k => d.effectAt values k (d.betweenPart s) x)
    (v := fun x k => d'.effectAt values' k (d'.betweenPart s') (r.between.move x))
    (fun k hk l hl => ?_) (fun i hi j hj => ?_) fun x hx i hi => ?_
  · rw [hd.get_hypothesis_eq_sum hs hne hk hl]
    exact sum_congr rfl fun x _ => mul_comm _ _
  · rw [hd'.get_hypothesis_eq_sum hs'' hne' (hi.trans_eq h.cols_eq.symm)
      (hj.trans_eq h.cols_eq.symm), cellPositions, r.between.sum_move]
    refine sum_congr rfl fun x hx => ?_
    rw [weightAt_move hd hd' values values' hs' hx, mul_comm]
  · rw [r.betweenPart_image hs']
    exact h.effectAt_move hd hd' hi hx

end Source

/-- What the cell means leave of the scores of a subject. -/
theorem residual_subject {i j : ℕ} (hi : i < d.subjectCount) (hj : j < values.cols) :
    ((d'.statistics values').residuals values' d'.subjectCells).get (r.subject i) j =
      ∑ k ∈ range values.cols, q j k *
        ((d.statistics values).residuals values d.subjectCells).get i k := by
  rw [hd'.get_residuals h.rows_eq' ((r.subject_lt i hi).trans_eq r.subjectCount_eq.symm)
    (hj.trans_eq h.cols_eq.symm), r.placement_subject hd hd' hi,
    h.cellMeanAt_move hd hd' hj (hd.placement_mem hi), h.get_eq i hi j hj,
    add_sub_add_right_eq_sub, ← sum_sub_distrib]
  refine sum_congr rfl fun k hk => ?_
  rw [hd.get_residuals h.rows_eq hi (mem_range.mp hk), mul_sub]

omit hd hd' in
/-- A sum over the rows of one matrix is one over the rows of the other. -/
theorem sum_rows_eq (g : ℕ → ℝ) :
    ∑ i ∈ range values'.rows, g i = ∑ i ∈ range values.rows, g (r.subject i) := by
  rw [h.rows_eq, h.rows_eq', r.sum_subjects]

/-- The error matrices of the full models are congruent. -/
theorem congruent_residuals : Mat.Congruent values.cols q
    ((d.statistics values).residuals values d.subjectCells).crossProduct
    ((d'.statistics values').residuals values' d'.subjectCells).crossProduct :=
  Mat.congruent_crossProduct rfl h.cols_eq h.sum_rows_eq
    fun _ hi _ hj => h.residual_subject hd hd' (hi.trans_eq h.rows_eq) hj

omit hd' in
/-- The grand means are the images of the grand means. -/
theorem getD_grandMeans {j : ℕ} (hj : j < values.cols) :
    (d'.statistics values').grandMeans.getD j 0 =
      ∑ k ∈ range values.cols, q j k * (d.statistics values).grandMeans.getD k 0 + c j := by
  have hpos := hd.subjectCount_pos
  have hcount : (d.subjectCount : ℝ) ≠ 0 := Nat.cast_ne_zero.mpr hpos.ne'
  have hpos' : 0 < values'.rows := by rwa [h.rows_eq', r.subjectCount_eq]
  have hgrand : ∀ k < values.cols, (d.statistics values).grandMeans.getD k 0 =
      (∑ i ∈ range d.subjectCount, values.get i k) / d.subjectCount := fun k hk => by
    rw [statistics, CellStatistics.getD_grandMeans hk (by rwa [h.rows_eq]), h.rows_eq]
  rw [statistics, CellStatistics.getD_grandMeans (hj.trans_eq h.cols_eq.symm) hpos', h.rows_eq',
    r.sum_subjects, r.subjectCount_eq, sum_congr rfl fun i hi => h.get_eq i (mem_range.mp hi) j hj,
    sum_add_distrib, sum_const, card_range, nsmul_eq_mul, add_div, mul_div_cancel_left₀ _ hcount,
    sum_comm, sum_div]
  refine congrArg (· + c j) (sum_congr rfl fun k hk => ?_)
  rw [hgrand k (mem_range.mp hk), ← mul_sum, mul_div_assoc]

/-- The error matrices of the models without the grand means are congruent, if no fixed row is
added. -/
theorem congruent_restored (hc : ∀ j < values.cols, c j = 0) : Mat.Congruent values.cols q
    (((d.statistics values).residuals values d.subjectCells).addRow
      (d.statistics values).grandMeans).crossProduct
    (((d'.statistics values').residuals values' d'.subjectCells).addRow
      (d'.statistics values').grandMeans).crossProduct := by
  refine Mat.congruent_crossProduct rfl h.cols_eq h.sum_rows_eq fun i hi j hj => ?_
  have hi : i < ((d.statistics values).residuals values d.subjectCells).rows := hi
  have hsubject : i < d.subjectCount := hi.trans_eq h.rows_eq
  have hi' : r.subject i < ((d'.statistics values').residuals values' d'.subjectCells).rows :=
    (r.subject_lt i hsubject).trans_eq (r.subjectCount_eq.symm.trans h.rows_eq'.symm)
  have hj' : j < ((d'.statistics values').residuals values' d'.subjectCells).cols :=
    hj.trans_eq h.cols_eq.symm
  rw [Mat.get_addRow _ hi' hj', h.residual_subject hd hd' hsubject hj, h.getD_grandMeans hd hj,
    hc j hj, add_zero, ← sum_add_distrib]
  refine sum_congr rfl fun k hk => ?_
  have hk : k < ((d.statistics values).residuals values d.subjectCells).cols := mem_range.mp hk
  rw [Mat.get_addRow _ hi hk, mul_add]

end Carries

end Relabelling

end Design

end SplitPlot
