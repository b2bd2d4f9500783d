import Mathlib
import SplitPlot.Proofs.Decomposition.Balanced
import SplitPlot.Proofs.Decomposition.Scores
import SplitPlot.Proofs.Design.Observations
import SplitPlot.Proofs.Nesting

/-!
# Closure of the decomposition

In a balanced design the squares of the scores about their overall mean are divided among the error
of the subject means and the sources, with nothing left over and nothing counted twice.

## Weights

A source within subjects is analysed on scores in which the other factors within subjects have been
averaged out, so what it shows occurs as often as there are cells of those factors
(`Design.averagedCells`).  For a source between subjects these are all cells within subjects.

## One share for each pair of sets

A source is a pair of sets of factors, and so is the place of its contribution: the second set
selects the score matrix, the first one the part of its cell means (`Design.share`).  The shares of
all pairs add up to the squares of all scores (`Accepted.sum_share`), because the contrasts lose
nothing of a subject and the parts nothing of a column.  What remains is to see that each result has
the share of its source, and that the pair of two empty sets, which is no source, holds the error of
the subject means and the overall mean.
-/

namespace SplitPlot

open Finset

namespace Mat

/-- The entries of a single column. -/
theorem sum_map_entries {a : Mat ℝ} (hcols : a.cols = 1) (g : ℝ → ℝ) :
    (a.entries.toList.map g).sum = ∑ i ∈ range a.rows, g (a.get i 0) := by
  have hlist : a.entries.toList = (List.range a.rows).map fun i => a.get i 0 := by
    refine List.ext_getElem ?_ fun i hi _ => ?_
    · rw [Array.length_toList, a.size_entries, hcols, mul_one, List.length_map, List.length_range]
    · rw [Array.getElem_toList, getElem_entries, List.getElem_map, List.getElem_range, hcols,
        Nat.div_one, Nat.mod_one]
  rw [hlist, List.map_map, sum_map_range]
  rfl

end Mat

namespace Design

/-! ## The sums of squares of a design -/

section Sums

variable (d : Design ℝ)

/-- The mean of all scores. -/
noncomputable def overallMean : ℝ :=
  (∑ i ∈ range d.subjectCount, ∑ x ∈ positions d.withinShape, d.score i x) /
    (d.subjectCount * d.withinCellCount)

/-- The squares of the scores about their mean. -/
noncomputable def totalSs : ℝ :=
  ∑ i ∈ range d.subjectCount, ∑ x ∈ positions d.withinShape, (d.score i x - d.overallMean) ^ 2

/-- The mean of a subject. -/
noncomputable def subjectMean (i : ℕ) : ℝ :=
  (∑ x ∈ positions d.withinShape, d.score i x) / d.withinCellCount

/-- The mean of the subjects of a cell between subjects. -/
noncomputable def meanOfCell (cell : ℕ) : ℝ :=
  (∑ i ∈ CellStatistics.rowsIn d.subjectCells cell, d.subjectMean i) / d.subjectCells.count cell

/-- The squares of the subject means about the means of their cells. -/
noncomputable def residualSs : ℝ :=
  ∑ i ∈ range d.subjectCount, (d.subjectMean i - d.meanOfCell (d.subjectCells.getD i 0)) ^ 2

/-- The number of cells of the factors within subjects that a source does not have. -/
def averagedCells {K : Type} (d : Design K) (s : Source) : ℕ :=
  ((d.withinFactors.filter fun f => !s.contains f).map d.levelCount).prod

/-- What a result contributes to the squares of the scores. -/
noncomputable def contribution (r : SourceResult ℝ) : ℝ :=
  match r.kind, r.matrices with
  | .between, _ => d.withinCellCount * r.test.ss
  | .within, some m => d.averagedCells r.source * m.restricted.trace
  | .mixed, some m => d.averagedCells r.source * (m.restricted - m.full).trace
  | _, none => 0

/-- The share of a pair of sets of factors, between subjects and within, in the squares of all
scores. -/
noncomputable def share (m : ℕ) (B T : Finset ℕ) : ℝ :=
  joined (flagged d.levelCount d.withinFactors T) * ∑ j ∈ range (d.scoreMatrix T).cols,
    if B = ∅ then
      ∑ i ∈ range d.subjectCount, ((d.scoreMatrix T).get i j - CellStatistics.cellMean
        (d.scoreMatrix T) d.subjectCells (d.subjectCells.getD i 0) j) ^ 2 +
        d.subjectCount * (d.statistics (d.scoreMatrix T)).grandMeans.getD j 0 ^ 2
    else d.partSs m (d.scoreMatrix T) j B

end Sums

variable {d : Design ℝ}

theorem averagedCells_eq {K : Type} (d : Design K) (s : Source) :
    d.averagedCells s = joined (d.flags d.withinFactors s) := by
  rw [averagedCells, joined, Coding.flags, List.filter_map, List.map_map]
  rfl

/-! ## The contribution of a result -/

section Contribution

variable (settings : Settings) {s : Source}

theorem contribution_between (h : d.kindOf s = .between) : d.contribution (d.resultOf settings s) =
    d.withinCellCount * (d.hypothesis d.meanStatistics s).get 0 0 := by
  simp only [contribution, kind_resultOf, h]
  rw [test_between settings h, Significance.ss_univariate]

theorem contribution_within (h : d.kindOf s = .within) : d.contribution (d.resultOf settings s) =
    d.averagedCells s * (d.withinRestrictedError s).trace := by
  simp only [contribution, kind_resultOf, h, matrices_within settings h, source_resultOf]
  rfl

theorem contribution_mixed (h : d.kindOf s = .mixed) : d.contribution (d.resultOf settings s) =
    d.averagedCells s * (d.mixedRestrictedError s - d.fullError s).trace := by
  simp only [contribution, kind_resultOf, h, matrices_mixed settings h, source_resultOf]
  rfl

theorem isSome_matrices (h : d.kindOf s ≠ .between) :
    (d.resultOf settings s).matrices.isSome := by
  cases hkind : d.kindOf s with
  | between => exact absurd hkind h
  | within => rw [matrices_within settings hkind]; rfl
  | mixed => rw [matrices_mixed settings hkind]; rfl

end Contribution

namespace Accepted

variable (hd : d.Accepted)

include hd

/-! ## The sum of all shares -/

theorem sum_share {m : ℕ} (hm : d.Balanced m) :
    ∑ B ∈ d.betweenFactors.toFinset.powerset, ∑ T ∈ d.withinFactors.toFinset.powerset,
      d.share m B T =
        ∑ i ∈ range d.subjectCount, ∑ x ∈ positions d.withinShape, d.score i x ^ 2 := by
  rw [sum_comm, ← hd.sum_joined_mul_sum_sq_scoreMatrix]
  refine sum_congr rfl fun T _ => ?_
  simp only [share]
  rw [← mul_sum, sum_comm]
  refine congrArg (_ * ·) (sum_congr rfl fun j hj => ?_)
  rw [hd.sum_sq_column hm (hd.rows_scoreMatrix T) (mem_range.mp hj),
    ← add_sum_erase _ _ (empty_mem_powerset d.betweenFactors.toFinset), if_pos rfl]
  exact congrArg (_ + ·) (sum_congr rfl fun B hB => if_neg (ne_of_mem_erase hB))

/-! ## The pair of two empty sets -/

theorem get_scoreMatrix_empty {i : ℕ} (hi : i < d.subjectCount) :
    (d.scoreMatrix ∅).get i 0 = d.subjectMean i := by
  rw [scoreMatrix_empty, hd.get_subjectMeans_accepted hi, subjectMean]

theorem cellMean_scoreMatrix_empty (cell : ℕ) :
    CellStatistics.cellMean (d.scoreMatrix ∅) d.subjectCells cell 0 = d.meanOfCell cell := by
  rw [CellStatistics.cellMean_eq, meanOfCell]
  refine congrArg (· / _) (sum_congr rfl fun i hi => hd.get_scoreMatrix_empty ?_)
  exact hd.length_subjectCells ▸ (CellStatistics.mem_rowsIn.mp hi).1

theorem grandMean_scoreMatrix_empty :
    (d.statistics (d.scoreMatrix ∅)).grandMeans.getD 0 0 = d.overallMean := by
  have hrows := hd.rows_scoreMatrix ∅
  rw [statistics, CellStatistics.getD_grandMeans (cols_scoreMatrix_empty (d := d) ▸ Nat.one_pos)
    (hrows ▸ hd.subjectCount_pos), hrows, overallMean,
    sum_congr rfl fun i hi => hd.get_scoreMatrix_empty (mem_range.mp hi)]
  simp only [subjectMean]
  rw [← sum_div, div_div, mul_comm (d.withinCellCount : ℝ)]

/-- What is left of the share of no factor without the overall mean is the error of the subject
means. -/
theorem share_empty (m : ℕ) : d.share m ∅ ∅ =
    d.withinCellCount * (d.residualSs + d.subjectCount * d.overallMean ^ 2) := by
  rw [share, joined_flagged_empty, cols_scoreMatrix_empty, sum_range_one, if_pos rfl,
    hd.grandMean_scoreMatrix_empty, residualSs]
  refine congrArg (fun e => _ * (e + _)) (sum_congr rfl fun i hi => ?_)
  rw [hd.get_scoreMatrix_empty (mem_range.mp hi), hd.cellMean_scoreMatrix_empty]

/-- The error sum of squares of every source between subjects. -/
theorem meanErrorSs_eq : d.meanErrorSs = d.residualSs := by
  have hrows : (subjectMeans d.scores).rows = d.subjectCells.length :=
    hd.rows_subjectMeans.trans hd.length_subjectCells.symm
  rw [meanErrorSs, total_eq_sum, Mat.sum_map_entries rfl, residualSs,
    CellStatistics.rows_residuals, hd.rows_subjectMeans]
  refine sum_congr rfl fun i hi => ?_
  have hi := mem_range.mp hi
  have hi' : i < d.subjectCells.length := hd.length_subjectCells.symm ▸ hi
  rw [meanStatistics, statistics,
    CellStatistics.get_residuals hrows hi' (hd.getD_subjectCells_lt hi) Nat.one_pos,
    ← scoreMatrix_empty, hd.get_scoreMatrix_empty hi, hd.cellMean_scoreMatrix_empty, pow_two]

/-! ## The share of a source -/

theorem statistics_scoresWithin {s : Source} (hs : d.withinPart s ≠ ∅) :
    (d.scoresWithin s).cells = d.statistics (d.scoreMatrix (d.withinPart s)) := by
  rw [hd.scoreMatrix_withinPart hs]
  rfl

/-- The restricted model of a source within subjects leaves the squares of the residuals and, for
each subject, the square of the grand mean. -/
theorem trace_withinRestrictedError {s : Source} (hs : d.withinPart s ≠ ∅) :
    (d.withinRestrictedError s).trace = ∑ j ∈ range (d.scoreMatrix (d.withinPart s)).cols,
      (∑ i ∈ range d.subjectCount, ((d.scoreMatrix (d.withinPart s)).get i j -
          CellStatistics.cellMean (d.scoreMatrix (d.withinPart s)) d.subjectCells
            (d.subjectCells.getD i 0) j) ^ 2 +
        d.subjectCount *
          (d.statistics (d.scoreMatrix (d.withinPart s))).grandMeans.getD j 0 ^ 2) := by
  rw [withinRestrictedError, hd.statistics_scoresWithin hs, scoresWithin,
    Mat.trace_crossProduct_addRow (hd.sum_scoreResiduals _), Mat.trace_crossProduct,
    hd.rows_scoreResiduals, cols_scoreResiduals, mul_sum, ← sum_add_distrib,
    hd.scoreMatrix_withinPart hs]
  refine sum_congr rfl fun j hj => congrArg (· + _) (sum_congr rfl fun i hi => ?_)
  rw [hd.get_scoreResiduals _ (mem_range.mp hi) (mem_range.mp hj)]

/-- The matrix of a source with factors of both kinds. -/
theorem trace_mixed {m : ℕ} (hm : d.Balanced m) {s : Source} (hs : s.toFinset ⊆ range d.factorCount)
    (hwithin : d.withinPart s ≠ ∅) (hbetween : d.betweenPart s ≠ ∅) :
    (d.mixedRestrictedError s - d.fullError s).trace =
      ∑ j ∈ range (d.scoreMatrix (d.withinPart s)).cols,
        d.partSs m (d.scoreMatrix (d.withinPart s)) j (d.betweenPart s) := by
  have hrows : (d.fullError s).rows = (d.scoreMatrix (d.withinPart s)).cols := by
    rw [fullError, Mat.rows_crossProduct, scoresWithin, cols_scoreResiduals,
      hd.scoreMatrix_withinPart hwithin]
  rw [mixedRestrictedError, Mat.trace_add_sub (d.isSquare_fullError s), hrows,
    hd.statistics_scoresWithin hwithin]
  exact sum_congr rfl fun j hj => hd.get_hypothesis_balanced hm (mem_range.mp hj) hs hbetween

/-- Each result contributes the share of the two parts of its source. -/
theorem contribution_result (settings : Settings) {m : ℕ} (hm : d.Balanced m) {s : Source}
    (hs : s ∈ Source.all d.factorCount) :
    d.contribution (d.resultOf settings s) =
      d.share m (d.betweenPart s) (d.withinPart s) := by
  obtain ⟨hsub, hnonempty⟩ := hd.mem_all_iff.mp hs
  have hparts := betweenPart_union_withinPart hsub
  have hweight : (d.averagedCells s : ℝ) =
      joined (flagged d.levelCount d.withinFactors (d.withinPart s)) := by
    rw [averagedCells_eq, hd.flags_within]
  cases hkind : d.kindOf s with
  | between =>
    have hwithin : d.withinPart s = ∅ :=
      disjoint_iff_inter_eq_empty.mp (hd.kindOf_eq_between_iff.mp hkind)
    have hbetween := hd.betweenPart_ne_empty hs (by rw [hkind]; decide)
    rw [contribution_between settings hkind, share, hwithin, joined_flagged_empty,
      cols_scoreMatrix_empty, sum_range_one, if_neg hbetween, scoreMatrix_empty,
      ← hd.get_hypothesis_balanced hm (Nat.one_pos) hsub hbetween]
    rfl
  | within =>
    have hbetween := hd.betweenPart_eq_empty hkind
    have hwithin : d.withinPart s ≠ ∅ := fun h => by
      rw [h, hbetween, union_empty] at hparts
      exact hnonempty.ne_empty hparts.symm
    rw [contribution_within settings hkind, hd.trace_withinRestrictedError hwithin, hweight, share]
    exact congrArg (_ * ·) (sum_congr rfl fun j _ => (if_pos hbetween).symm)
  | mixed =>
    obtain ⟨hdisj, -⟩ := hd.kindOf_eq_mixed_iff.mp hkind
    have hwithin : d.withinPart s ≠ ∅ := fun h => hdisj (disjoint_iff_inter_eq_empty.mpr h)
    have hbetween := hd.betweenPart_ne_empty hs (by rw [hkind]; decide)
    rw [contribution_mixed settings hkind, hd.trace_mixed hm hsub hwithin hbetween, hweight, share]
    exact congrArg (_ * ·) (sum_congr rfl fun j _ => (if_neg hbetween).symm)

/-- The squares about the overall mean. -/
theorem totalSs_eq : d.totalSs =
    ∑ i ∈ range d.subjectCount, ∑ x ∈ positions d.withinShape, d.score i x ^ 2 -
      d.withinCellCount * (d.subjectCount * d.overallMean ^ 2) := by
  have hpos : (d.subjectCount * d.withinCellCount : ℝ) ≠ 0 :=
    mul_ne_zero (Nat.cast_ne_zero.mpr hd.subjectCount_pos.ne')
      (Nat.cast_ne_zero.mpr hd.withinCellCount_pos.ne')
  have hcard : (range d.subjectCount ×ˢ positions d.withinShape).card =
      d.subjectCount * d.withinCellCount := by
    rw [card_product, card_range, card_positions, Coding.withinCellCount]
  have hmean : (range d.subjectCount ×ˢ positions d.withinShape).card * d.overallMean =
      ∑ p ∈ range d.subjectCount ×ˢ positions d.withinShape, d.score p.1 p.2 := by
    rw [hcard, sum_product, Nat.cast_mul, overallMean, mul_div_cancel₀ _ hpos]
  have hall := sum_sub_sq hmean
  rw [sum_product, sum_product, hcard, Nat.cast_mul] at hall
  rw [totalSs, hall]
  ring

end Accepted

/-! ## The averaged rows -/

section Rows

variable {t : ObservationTable ℝ} (ht : t.Built) {settings : Settings}
  (h : ofTable t settings = .ok d)

include ht h

/-- The mean of all scores is that of the averaged rows. -/
theorem mean_averages : mean (t.averages.map (·.value)) = d.overallMean := by
  have hlength := sum_averages ht h fun _ => (1 : ℝ)
  simp only [sum_const, card_range, card_positions, nsmul_eq_mul, mul_one, List.map_const',
    List.sum_replicate] at hlength
  rw [mean_eq, List.length_map, hlength, sum_averages ht h fun y => y]
  rfl

/-- The squares of the scores about their mean are those of the averaged rows. -/
theorem sum_sq_averages :
    (t.averages.map fun r => (r.value - mean (t.averages.map (·.value))) ^ 2).sum = d.totalSs := by
  rw [mean_averages ht h, sum_averages ht h fun y => (y - d.overallMean) ^ 2]
  rfl

end Rows

/-- **Closure.**  In a balanced design the squares of the averaged rows about their mean are the
error of the subject means and the contributions of all sources. -/
theorem totalSs_eq_residualSs_add_contributions {t : ObservationTable ℝ} (ht : t.Built)
    {settings : Settings} {d : Design ℝ} (h : ofTable t settings = .ok d) {m : ℕ}
    (hm : d.Balanced m) :
    ∃ table, anova t settings = .ok table ∧
      table.results.map (·.source) = Source.all d.factorCount ∧
      (∀ r ∈ table.results, r.kind = d.kindOf r.source) ∧
      (∀ r ∈ table.results, r.kind = .between → r.test.errorSs = d.residualSs) ∧
      (∀ r ∈ table.results, r.kind ≠ .between → r.matrices.isSome) ∧
      (t.averages.map fun r => (r.value - mean (t.averages.map (·.value))) ^ 2).sum =
        d.withinCellCount * d.residualSs + (table.results.map d.contribution).sum := by
  have hd := accepted_of_ofTable ht h
  refine ⟨_, anova_eq_ok ht h, ?_, ?_, ?_, ?_, ?_⟩
  · rw [List.map_map]
    exact (List.map_congr_left fun s _ => source_resultOf settings s).trans (List.map_id _)
  · intro r hr
    obtain ⟨s, -, rfl⟩ := List.mem_map.mp hr
    rw [kind_resultOf, source_resultOf]
  · intro r hr hkind
    obtain ⟨s, -, rfl⟩ := List.mem_map.mp hr
    rw [kind_resultOf] at hkind
    rw [test_between settings hkind, Significance.errorSs_univariate, hd.meanErrorSs_eq]
  · intro r hr hkind
    obtain ⟨s, -, rfl⟩ := List.mem_map.mp hr
    rw [kind_resultOf] at hkind
    exact isSome_matrices settings hkind
  · have hall := hd.sum_all (d.share m)
    rw [hd.share_empty, hd.sum_share hm] at hall
    have hcontributions : (Source.all d.factorCount).map
        (d.contribution ∘ d.resultOf settings) =
          (Source.all d.factorCount).map fun s => d.share m (d.betweenPart s) (d.withinPart s) :=
      List.map_congr_left fun s hs => hd.contribution_result settings hm hs
    rw [sum_sq_averages ht h, List.map_map, hcontributions, hd.totalSs_eq, ← hall]
    ring

/-- Two groups of two subjects, each measured twice. -/
noncomputable def crossedGroups : ObservationTable ℝ :=
  wholeTable 2 [(1, [0, 0], 3), (1, [0, 1], 5), (2, [0, 0], 4), (2, [0, 1], 8), (3, [1, 0], 6),
    (3, [1, 1], 7), (4, [1, 0], 1), (4, [1, 1], 9)]

theorem built_crossedGroups : crossedGroups.Built := built_wholeTable (by decide) (by decide)

theorem ofTable_crossedGroups :
    ofTable crossedGroups {} = .ok (tableCoding crossedGroups {}).toDesign := rfl

theorem balanced_crossedGroups : (tableCoding crossedGroups {}).toDesign.Balanced 2 := by
  have h : ∀ cell < (tableCoding crossedGroups {}).betweenCellCount,
      (tableCoding crossedGroups {}).cells.count cell = 2 := by decide
  exact h

/-- The decomposition of the two groups is closed. -/
theorem closure_crossedGroups : crossedGroups.Built ∧ ∃ d, ofTable crossedGroups {} = .ok d ∧
    d.Balanced 2 ∧ ∃ table, anova crossedGroups {} = .ok table ∧
      (crossedGroups.averages.map fun r =>
        (r.value - mean (crossedGroups.averages.map (·.value))) ^ 2).sum =
          d.withinCellCount * d.residualSs + (table.results.map d.contribution).sum := by
  obtain ⟨table, htable, -, -, -, -, hclosure⟩ := totalSs_eq_residualSs_add_contributions
    built_crossedGroups ofTable_crossedGroups balanced_crossedGroups
  exact ⟨built_crossedGroups, _, ofTable_crossedGroups, balanced_crossedGroups, table, htable,
    hclosure⟩

end Design

end SplitPlot
