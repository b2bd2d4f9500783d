import Mathlib
import SplitPlot.Proofs.Partial.Scores

/-!
# Cells and effects that are defined

The statistics of the cells divide by the number of rows of a cell, if there are any, and by the
number of all rows, or by one if there are none; so they are defined for every matrix of scores
(`CellStatistics.ofRows_map_of`).  Marginal means divide by the extents of the axes that are
averaged, which are the numbers of levels of factors between subjects, and the weighted mean by a
sum of sizes that it tests before.  From there on an effect, its hypothesis matrix and the error
matrices are sums and products.
-/

namespace SplitPlot

section Map

variable {K L : Type}

/-- The statistics with each number taken to another one. -/
def CellStatistics.map (f : K → L) (c : CellStatistics K) : CellStatistics L where
  means := c.means.map f
  flatMeans := c.flatMeans.map f
  counts := c.counts.map f
  harmonicN := f c.harmonicN
  grandMeans := c.grandMeans.map f

/-- The contrast scores with each number taken to another one. -/
def ContrastScores.map (f : K → L) (d : ContrastScores K) : ContrastScores L :=
  ⟨d.source, d.columns.map f, d.cells.map f⟩

end Map

/-! ## Statistics of cells -/

namespace CellStatistics

variable {c : Comparison}

section Rows

variable (values : Mat ℝ) (cells shape : List ℕ)

theorem cellMean_map_of (cell var : ℕ) : cellMean (values.map (Checked.of c)) cells cell var =
    Checked.of c (cellMean values cells cell var) := by
  rw [cellMean, cellMean]
  by_cases hempty : (members cells cell).isEmpty = true
  · rw [if_pos hempty, if_pos hempty, Checked.zero_eq]
  · have hvalues : (members cells cell).map (fun r => (values.map (Checked.of c)).get r var) =
        ((members cells cell).map fun r => values.get r var).map (Checked.of c) := by
      rw [List.map_map]
      exact List.map_congr_left fun r _ => values.get_map_of r var
    rw [if_neg hempty, if_neg hempty, hvalues, Checked.mean_map_of]
    rw [Ne, List.map_eq_nil_iff, ← List.isEmpty_iff]
    exact hempty

theorem col_map_of (j : ℕ) :
    (values.map (Checked.of c)).col j = (values.col j).map (Checked.of c) := by
  rw [Mat.col, Mat.col, List.map_map]
  exact List.map_congr_left fun i _ => values.get_map_of i j

theorem ofRows_map_of : ofRows (values.map (Checked.of c)) cells shape =
    (ofRows values cells shape).map (Checked.of c) := by
  have hflat : (Mat.ofFn (cellCount shape) values.cols
      (cellMean (values.map (Checked.of c)) cells) : Mat (Checked c)) =
        (Mat.ofFn (cellCount shape) values.cols (cellMean values cells)).map (Checked.of c) := by
    rw [Mat.map_ofFn]
    exact congrArg (Mat.ofFn _ _)
      (funext fun cell => funext fun j => cellMean_map_of values cells cell j)
  have hcounts : (Grid.ofFn shape fun index =>
      ((members cells (flatIndex index shape)).length : Checked c)) =
        (Grid.ofFn shape fun index => ((members cells (flatIndex index shape)).length : ℝ)).map
          (Checked.of c) := by
    rw [Grid.map_ofFn]
    rfl
  have hmeans : ∀ flat : Mat ℝ, (Grid.ofFn (shape ++ [values.cols]) fun index =>
      (flat.map (Checked.of c)).get (flatIndex index.dropLast shape) (index.getLastD 0)) =
        (Grid.ofFn (shape ++ [values.cols]) fun index =>
          flat.get (flatIndex index.dropLast shape) (index.getLastD 0)).map (Checked.of c) := by
    intro flat
    rw [Grid.map_ofFn]
    exact congrArg (Grid.ofFn _) (funext fun index => flat.get_map_of _ _)
  have hmean : ∀ j,
      total ((values.map (Checked.of c)).col j) / ((max values.rows 1 : ℕ) : Checked c) =
        Checked.of c (total (values.col j) / ((max values.rows 1 : ℕ) : ℝ)) := by
    intro j
    have hrows : ((max values.rows 1 : ℕ) : ℝ) ≠ 0 :=
      Nat.cast_ne_zero.mpr (lt_of_lt_of_le Nat.one_pos (le_max_right _ _)).ne'
    rw [col_map_of, Checked.total_map_of, Checked.natCast_eq, Checked.of_div hrows]
  simp only [ofRows, map, Mat.cols_map, Mat.rows_map, hflat, hcounts, hmeans, hmean,
    Grid.toList_map, Checked.harmonicMean_map_of, List.map_map]
  rfl

theorem residuals_map_of (s : CellStatistics ℝ) :
    (s.map (Checked.of c)).residuals (values.map (Checked.of c)) cells =
      (s.residuals values cells).map (Checked.of c) := by
  rw [residuals, residuals, Mat.map_ofFn]
  refine congrArg (Mat.ofFn _ _) (funext fun i => funext fun j => ?_)
  have hmean : (s.map (Checked.of c)).flatMeans = s.flatMeans.map (Checked.of c) := rfl
  rw [hmean]
  cases cells[i]? with
  | none => exact values.get_map_of i j
  | some cell =>
    dsimp only
    rw [Mat.get_map_of, Mat.get_map_of, Checked.of_sub]

end Rows

/-! ## Marginal means and effects -/

section Margins

variable {s : CellStatistics ℝ}
  (haxes : ∀ a < s.betweenAxes, 0 < s.means.extent a ∧ 0 < s.counts.extent a) (axes : List ℕ)

theorem lt_of_mem_otherAxes {a : ℕ} (ha : a ∈ s.otherAxes axes) : a < s.betweenAxes :=
  List.mem_range.mp (List.mem_filter.mp ha).1

theorem multiplicity_map_of :
    (s.map (Checked.of c)).multiplicity axes = Checked.of c (s.multiplicity axes) := by
  rw [multiplicity, multiplicity, ← Checked.product_map_of, List.map_map]
  rfl

include haxes

theorem marginalMeans_map_of : (s.map (Checked.of c)).marginalMeans axes =
    (s.marginalMeans axes).map (Checked.of c) :=
  Grid.meanKeep_map_of fun a ha => (haxes a (lt_of_mem_otherAxes axes ha)).1

theorem marginalCounts_map_of : (s.map (Checked.of c)).marginalCounts axes =
    (s.marginalCounts axes).map (Checked.of c) :=
  Grid.harmonicMeanKeep_map_of fun a ha => (haxes a (lt_of_mem_otherAxes axes ha)).2

theorem weightedMean_map_of :
    (s.map (Checked.of c)).weightedMean axes = (s.weightedMean axes).map (Checked.of c) := by
  let products := Grid.ofFn (s.marginalMeans axes).shape fun index =>
    (s.marginalMeans axes).get index * (s.marginalCounts axes).get index.dropLast
  have hproducts : (Grid.ofFn (s.marginalMeans axes).shape fun index =>
      Checked.of c ((s.marginalMeans axes).get index *
        (s.marginalCounts axes).get index.dropLast)) =
      products.map (Checked.of c) := (Grid.map_ofFn _ _ _).symm
  have hsums : (products.map (Checked.of c)).sumKeep (List.range s.betweenAxes) =
      (products.sumKeep (List.range s.betweenAxes)).map (Checked.of c) :=
    Grid.sumKeep_map_of fun a ha =>
      Grid.extent_reduceAllKeep_pos _ (haxes a (List.mem_range.mp ha)).1
  have hbetween : (s.map (Checked.of c)).betweenAxes = s.betweenAxes := rfl
  simp only [weightedMean, marginalMeans_map_of haxes, marginalCounts_map_of haxes, Grid.shape_map,
    Grid.get_map_of, Checked.of_mul, hproducts, hbetween, hsums, Grid.sum_map_of, Checked.zero_eq,
    Checked.of_lt_iff]
  by_cases hn : 0 < (s.marginalCounts axes).sum
  · rw [if_pos hn, if_pos hn, Grid.map_ofFn]
    exact congrArg (Grid.ofFn _) (funext fun index => Checked.of_div hn.ne')
  · rw [if_neg hn, if_neg hn]

theorem centredMeans_map_of :
    (s.map (Checked.of c)).centredMeans axes = (s.centredMeans axes).map (Checked.of c) := by
  simp only [centredMeans, marginalMeans_map_of haxes, weightedMean_map_of haxes, Grid.map_ofFn,
    Grid.shape_map, Grid.get_map_of, Grid.getStretched_map_of, Checked.of_sub]

theorem hypothesisWeights_map_of (spansAll : Bool) :
    (s.map (Checked.of c)).hypothesisWeights axes spansAll =
      (s.hypothesisWeights axes spansAll).map (Checked.of c) := by
  simp only [hypothesisWeights, marginalCounts_map_of haxes, multiplicity_map_of, Grid.map_ofFn,
    Grid.shape_map, Grid.get_map_of]
  refine congrArg (Grid.ofFn _) (funext fun index => ?_)
  cases spansAll <;> rfl

omit haxes in
theorem hypothesisMatrix_map_of (effect weights : Grid ℝ) :
    (s.map (Checked.of c)).hypothesisMatrix (effect.map (Checked.of c))
        (weights.map (Checked.of c)) =
      (s.hypothesisMatrix effect weights).map (Checked.of c) := by
  have hcount : (s.map (Checked.of c)).variableCount = s.variableCount := List.length_map _
  rw [hypothesisMatrix, hypothesisMatrix, Mat.map_ofFn, hcount]
  simp only [Grid.shape_map, Grid.get_map_of, Checked.of_mul, ← Checked.total_map_of, List.map_map]
  rfl

end Margins

end CellStatistics

theorem Grid.minus_map_of {c : Comparison} (g h : Grid ℝ) :
    (g.map (Checked.of c)).minus (h.map (Checked.of c)) = (g.minus h).map (Checked.of c) := by
  simp only [Grid.minus, Grid.map_ofFn, Grid.shape_map, Grid.get_map_of, Grid.getStretched_map_of,
    Checked.of_sub]

/-! ## The models of an accepted design -/

namespace Design

variable {d : Design ℝ} (hd : d.Accepted) (c : Comparison)

theorem statistics_map_of (values : Mat ℝ) : (d.map (Checked.of c)).statistics
    (values.map (Checked.of c)) = (d.statistics values).map (Checked.of c) :=
  CellStatistics.ofRows_map_of values d.subjectCells d.betweenShape

theorem scoreResiduals_map_of (scores : ContrastScores ℝ) :
    (d.map (Checked.of c)).scoreResiduals (scores.map (Checked.of c)) =
      (d.scoreResiduals scores).map (Checked.of c) :=
  scores.cells.residuals_map_of scores.columns d.subjectCells

theorem grandEffect_map_of (scores : ContrastScores ℝ) :
    (d.map (Checked.of c)).grandEffect (scores.map (Checked.of c)) =
      (d.grandEffect scores).map (Checked.of c) := by
  rw [grandEffect, grandEffect, Grid.map_ofFn]
  exact congrArg (Grid.ofFn _) (funext fun index => Checked.getD_map_of _ _)

include hd

/-- The axes of the tables of cells have the levels of the factors between subjects. -/
theorem Accepted.extent_statistics_pos (values : Mat ℝ) : ∀ a < (d.statistics values).betweenAxes,
    0 < (d.statistics values).means.extent a ∧ 0 < (d.statistics values).counts.extent a := by
  intro a ha
  have ha : a < d.betweenShape.length := ha
  have hlt : a < d.betweenFactors.length := (List.length_map _) ▸ ha
  have hcounts : 0 < d.betweenShape.getD a 0 := by
    rw [Coding.betweenShape, List.getD_eq_getElem _ _ ((List.length_map _).symm ▸ hlt),
      List.getElem_map]
    exact hd.levelCount_between_pos (List.getElem_mem hlt)
  have hmeans : (d.betweenShape ++ [values.cols]).getD a 0 = d.betweenShape.getD a 0 :=
    List.getD_append _ _ _ _ ha
  refine ⟨?_, hcounts⟩
  show 0 < (d.betweenShape ++ [values.cols]).getD a 0
  rwa [hmeans]

theorem Accepted.pureEffect_map_of (values : Mat ℝ) : ∀ s : Source,
    (d.map (Checked.of c)).pureEffect ((d.statistics values).map (Checked.of c)) s =
      (d.pureEffect (d.statistics values) s).map (Checked.of c) := by
  intro s
  induction hn : s.toFinset.card using Nat.strong_induction_on generalizing s with
  | _ n ih =>
    subst hn
    have hfold : ∀ (l : List Source) (g : Grid ℝ), (∀ t ∈ l, t ∈ d.subSources s) →
        l.foldl (fun effect t => effect.minus
          ((d.map (Checked.of c)).pureEffect ((d.statistics values).map (Checked.of c)) t))
            (g.map (Checked.of c)) =
          (l.foldl (fun effect t => effect.minus (d.pureEffect (d.statistics values) t)) g).map
            (Checked.of c) := by
      intro l
      induction l with
      | nil => exact fun _ _ => rfl
      | cons t l ihl =>
        intro g hl
        obtain ⟨ht, hl⟩ := List.forall_mem_cons.mp hl
        rw [List.foldl_cons, List.foldl_cons, ih _ (card_lt_of_mem_subSources ht) t rfl,
          Grid.minus_map_of]
        exact ihl _ hl
    rw [pureEffect_eq, pureEffect_eq]
    have hstart := CellStatistics.centredMeans_map_of (c := c) (hd.extent_statistics_pos values)
      (d.betweenAxes s)
    have hbetween : (d.map (Checked.of c)).betweenAxes s = d.betweenAxes s := rfl
    rw [hbetween, hstart]
    exact hfold _ _ fun t ht => ht

theorem Accepted.hypothesis_map_of (values : Mat ℝ) (s : Source) :
    (d.map (Checked.of c)).hypothesis ((d.statistics values).map (Checked.of c)) s =
      (d.hypothesis (d.statistics values) s).map (Checked.of c) := by
  have hweights := CellStatistics.hypothesisWeights_map_of (c := c)
    (hd.extent_statistics_pos values) (d.betweenAxes s) (s == d.fullSource)
  rw [hypothesis, hypothesis, hd.pureEffect_map_of]
  show ((d.statistics values).map (Checked.of c)).hypothesisMatrix _
    (((d.statistics values).map (Checked.of c)).hypothesisWeights (d.betweenAxes s)
      (s == d.fullSource)) = _
  rw [hweights, CellStatistics.hypothesisMatrix_map_of]

/-! ## What a source is tested with -/

theorem Accepted.meanStatistics_map_of :
    (d.map (Checked.of c)).meanStatistics = d.meanStatistics.map (Checked.of c) := by
  rw [meanStatistics, meanStatistics, hd.subjectMeans_map_of, statistics_map_of]

theorem Accepted.scoresOf_map_of (s : Source) :
    (d.map (Checked.of c)).scoresOf s = (d.scoresOf s).map (Checked.of c) := by
  rw [scoresOf, scoresOf, hd.contrastColumns_map_of, statistics_map_of]
  rfl

theorem Accepted.scoresWithin_map_of (s : Source) :
    (d.map (Checked.of c)).scoresWithin s = (d.scoresWithin s).map (Checked.of c) :=
  hd.scoresOf_map_of c _

theorem Accepted.meanErrorSs_map_of :
    (d.map (Checked.of c)).meanErrorSs = Checked.of c d.meanErrorSs := by
  have hresiduals :=
    d.meanStatistics.residuals_map_of (c := c) (subjectMeans d.scores) d.subjectCells
  rw [meanErrorSs, meanErrorSs, hd.meanStatistics_map_of, hd.subjectMeans_map_of,
    ← Checked.total_map_of, List.map_map]
  show total ((((d.meanStatistics.map (Checked.of c)).residuals
    ((subjectMeans d.scores).map (Checked.of c)) d.subjectCells).entries.toList).map _) = _
  rw [hresiduals]
  show total ((Array.map (Checked.of c) _).toList.map _) = _
  rw [Array.toList_map, List.map_map]
  rfl

theorem Accepted.fullError_map_of (s : Source) :
    (d.map (Checked.of c)).fullError s = (d.fullError s).map (Checked.of c) := by
  rw [fullError, fullError, hd.scoresWithin_map_of, scoreResiduals_map_of, Mat.crossProduct_map_of]

theorem Accepted.mixedRestrictedError_map_of (s : Source) :
    (d.map (Checked.of c)).mixedRestrictedError s =
      (d.mixedRestrictedError s).map (Checked.of c) := by
  rw [mixedRestrictedError, mixedRestrictedError, hd.fullError_map_of, hd.scoresWithin_map_of,
    ← Mat.add_map_of]
  exact congrArg _ (hd.hypothesis_map_of c _ s)

theorem Accepted.withinRestrictedError_map_of (s : Source) :
    (d.map (Checked.of c)).withinRestrictedError s =
      (d.withinRestrictedError s).map (Checked.of c) := by
  rw [withinRestrictedError, withinRestrictedError, hd.scoresWithin_map_of, scoreResiduals_map_of]
  show Mat.crossProduct (Mat.addRow _ (List.map (Checked.of c) _)) = _
  rw [Mat.addRow_map_of, Mat.crossProduct_map_of]

end Design

end SplitPlot
