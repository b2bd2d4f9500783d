import Mathlib
import SplitPlot.Proofs.Decomposition.Closure
import SplitPlot.Proofs.OneWay

/-!
# The groups of a design

Numbers of the subjects of an accepted design, listed cell by cell, are groups (`Design.groupsOf`).
Those of the subject means are `Design.groups`, and the error of every source between subjects is
the sum of squares within them (`ssWithin_groups`), whatever the factors of the design are.

## One factor

With a single factor, which is one between subjects, the design has a single source, and this source
has no sub-source.  Its effect is what the mean of a group differs by from the mean of all subjects
(`get_pureEffect_oneFactor`).  The source has all factors of the design, so every cell is weighted
with the harmonic mean of the sizes of all cells, and the sum of squares is `OneWay.ssHarmonic`
(`get_hypothesis_oneFactor`).
-/

namespace SplitPlot

open Finset

namespace Design

/-- The numbers of the subjects of a cell between subjects. -/
noncomputable def cellValues (d : Design ℝ) (v : ℕ → ℝ) (cell : ℕ) : List ℝ :=
  (CellStatistics.members d.subjectCells cell).map v

/-- The numbers of all subjects, cell by cell. -/
noncomputable def groupsOf (d : Design ℝ) (v : ℕ → ℝ) : List (List ℝ) :=
  (List.range d.betweenCellCount).map (d.cellValues v)

/-- The means of the subjects of a cell between subjects. -/
noncomputable def cellScores (d : Design ℝ) (cell : ℕ) : List ℝ :=
  (CellStatistics.members d.subjectCells cell).map d.subjectMean

/-- The subject means, cell by cell. -/
noncomputable def groups (d : Design ℝ) : List (List ℝ) :=
  (List.range d.betweenCellCount).map d.cellScores

variable {d : Design ℝ}

/-! ## Sums over groups -/

section Values

variable (v : ℕ → ℝ)

theorem length_cellValues (cell : ℕ) :
    (d.cellValues v cell).length = d.subjectCells.count cell := by
  rw [cellValues, List.length_map, CellStatistics.length_members]

theorem sum_cellValues (cell : ℕ) (g : ℝ → ℝ) : ((d.cellValues v cell).map g).sum =
    ∑ i ∈ CellStatistics.rowsIn d.subjectCells cell, g (v i) := by
  rw [cellValues, List.map_map, CellStatistics.sum_map_members]
  rfl

theorem mean_cellValues (cell : ℕ) : mean (d.cellValues v cell) =
    (∑ i ∈ CellStatistics.rowsIn d.subjectCells cell, v i) / d.subjectCells.count cell := by
  have hsum := sum_cellValues (d := d) v cell fun y => y
  rw [List.map_id'] at hsum
  rw [mean_eq, length_cellValues, hsum]

theorem length_groupsOf : (d.groupsOf v).length = d.betweenCellCount := by
  rw [groupsOf, List.length_map, List.length_range]

/-- A sum over the groups is a sum over the cells. -/
theorem sum_groupsOf (g : List ℝ → ℝ) : ((d.groupsOf v).map g).sum =
    ∑ cell ∈ range d.betweenCellCount, g (d.cellValues v cell) := by
  rw [groupsOf, List.map_map, sum_map_range]
  rfl

namespace Accepted

variable (hd : d.Accepted)

include hd

theorem sum_flatten_groupsOf (g : ℝ → ℝ) :
    ((d.groupsOf v).flatten.map g).sum = ∑ i ∈ range d.subjectCount, g (v i) := by
  rw [List.map_flatten, List.sum_flatten, List.map_map, hd.sum_subjects]
  exact (sum_groupsOf v _).trans (sum_congr rfl fun cell _ => sum_cellValues v cell g)

theorem length_flatten_groupsOf : (d.groupsOf v).flatten.length = d.subjectCount := by
  have hsum := hd.sum_flatten_groupsOf v fun _ => 1
  simp only [List.map_const', List.sum_replicate, sum_const, card_range, nsmul_eq_mul,
    mul_one] at hsum
  exact_mod_cast hsum

/-- Every cell has a subject, so no group is empty. -/
theorem ne_nil_of_mem_groupsOf : ∀ g ∈ d.groupsOf v, g ≠ [] := by
  intro g hg
  obtain ⟨cell, hcell, rfl⟩ := List.mem_map.mp hg
  have hmem := hd.mem_subjectCells (List.mem_range.mp hcell)
  rw [← List.length_pos_iff, length_cellValues]
  exact List.count_pos_iff.mpr hmem

/-- The squares of the numbers about the means of their cells. -/
theorem ssWithin_groupsOf : OneWay.ssWithin (d.groupsOf v) = ∑ i ∈ range d.subjectCount,
    (v i - mean (d.cellValues v (d.subjectCells.getD i 0))) ^ 2 := by
  rw [OneWay.ssWithin_eq (hd.ne_nil_of_mem_groupsOf v), sum_groupsOf, hd.sum_subjects]
  refine sum_congr rfl fun cell _ => ?_
  rw [sum_cellValues]
  exact sum_congr rfl fun i hi => by rw [(CellStatistics.mem_rowsIn.mp hi).2]

end Accepted

end Values

theorem length_cellScores (cell : ℕ) : (d.cellScores cell).length = d.subjectCells.count cell :=
  length_cellValues d.subjectMean cell

theorem mean_cellScores (cell : ℕ) : mean (d.cellScores cell) = d.meanOfCell cell :=
  mean_cellValues d.subjectMean cell

theorem length_groups : d.groups.length = d.betweenCellCount := length_groupsOf d.subjectMean

theorem sum_groups (g : List ℝ → ℝ) :
    (d.groups.map g).sum = ∑ cell ∈ range d.betweenCellCount, g (d.cellScores cell) :=
  sum_groupsOf d.subjectMean g

/-- The weight of a source of all factors is the harmonic mean of the sizes of the groups. -/
theorem harmonicN_eq (values : Mat ℝ) : (d.statistics values).harmonicN =
    harmonicMean (d.groups.map fun g => (g.length : ℝ)) := by
  have hshape : (d.statistics values).counts.shape = d.betweenShape := rfl
  have hsizes : (d.statistics values).counts.toList = d.groups.map fun g => (g.length : ℝ) := by
    rw [Grid.toList_eq, hshape, multiIndices_eq, List.map_map, groups, List.map_map]
    refine List.map_congr_left fun cell hcell => ?_
    have hcell := List.mem_range.mp hcell
    show (d.statistics values).counts.get _ = ((d.cellScores cell).length : ℝ)
    rw [statistics, CellStatistics.get_counts (inBounds_unravel hcell), flatIndex_unravel hcell,
      length_cellScores]
  rw [← hsizes]
  rfl

namespace Accepted

variable (hd : d.Accepted)

include hd

theorem length_flatten_groups : d.groups.flatten.length = d.subjectCount :=
  hd.length_flatten_groupsOf d.subjectMean

theorem ne_nil_of_mem_groups : ∀ g ∈ d.groups, g ≠ [] := hd.ne_nil_of_mem_groupsOf d.subjectMean

/-- The error of the subject means is the sum of squares within the groups. -/
theorem ssWithin_groups : OneWay.ssWithin d.groups = d.residualSs := by
  refine (hd.ssWithin_groupsOf d.subjectMean).trans (sum_congr rfl fun i _ => ?_)
  rw [mean_cellValues, meanOfCell]

end Accepted

/-! ## Designs without factors within subjects -/

namespace Accepted

variable (hd : d.Accepted) (hwithin : d.withinFactors = [])

include hd hwithin

/-- Without factors within subjects each subject is observed once. -/
theorem subjects_perm :
    (d.observations.map (·.subject)).Perm (List.range d.subjectCount) := by
  have hlevels : ∀ o : CodedObservation ℝ, o.levelsAt d.withinFactors = [] := fun o => by
    rw [hwithin, CodedObservation.levelsAt, List.map_nil]
  have hnodup : (d.observations.map (·.subject)).Nodup := by
    refine (List.nodup_map_iff_inj_on (List.Nodup.of_map _ hd.coherent.nodup_keys)).mpr ?_
    exact fun o ho o' ho' h => hd.eq_of_visit ho ho' h ((hlevels o).trans (hlevels o').symm)
  refine (List.perm_ext_iff_of_nodup hnodup List.nodup_range).mpr fun i => ?_
  rw [List.mem_map, List.mem_range]
  constructor
  · rintro ⟨o, ho, rfl⟩
    exact hd.coherent.subject_lt o ho
  · exact hd.coherent.exists_subject i

theorem value_eq_subjectMean {o : CodedObservation ℝ} (ho : o ∈ d.observations) :
    o.value = d.subjectMean o.subject := by
  have hvalue := hd.get_scores_observation ho
  rw [hwithin] at hvalue
  rw [subjectMean, Coding.withinCellCount, Coding.withinShape, hwithin, List.map_nil, positions_nil,
    sum_singleton, cellCount_nil, Nat.cast_one, div_one]
  exact hvalue.symm

/-- The values of the observations of a cell are its subject means. -/
theorem cellScores_perm (cell : ℕ) :
    ((d.observations.filter fun o =>
      flatIndex (o.levelsAt d.betweenFactors) d.betweenShape == cell).map (·.value)).Perm
        (d.cellScores cell) := by
  let inCell : ℕ → Bool := fun i => d.subjectCells.getD i 0 == cell
  have hfilter : (d.observations.filter fun o =>
      flatIndex (o.levelsAt d.betweenFactors) d.betweenShape == cell) =
        d.observations.filter (inCell ∘ (·.subject)) :=
    List.filter_congr fun o ho => by
      rw [← hd.getD_subjectCells_observation ho]
      rfl
  have hvalues : (d.observations.filter (inCell ∘ (·.subject))).map (·.value) =
      ((d.observations.map (·.subject)).filter inCell).map d.subjectMean := by
    rw [List.filter_map, List.map_map]
    exact List.map_congr_left fun o ho =>
      hd.value_eq_subjectMean hwithin (List.mem_of_mem_filter ho)
  have hmembers : ((List.range d.subjectCount).filter inCell).Perm
      (CellStatistics.members d.subjectCells cell) := by
    refine (List.perm_ext_iff_of_nodup (List.nodup_range.filter _)
      (CellStatistics.nodup_members _ _)).mpr fun i => ?_
    rw [List.mem_filter, List.mem_range, CellStatistics.mem_members, hd.length_subjectCells]
    exact and_congr_right fun _ => beq_iff_eq
  rw [hfilter, hvalues]
  exact (((hd.subjects_perm hwithin).filter _).trans hmembers).map _

end Accepted

/-! ## One factor -/

theorem betweenFactors_oneFactor (hcount : d.factorCount = 1) (hwithin : d.withinFactors = []) :
    d.betweenFactors = [0] := by
  have hzero : (d.factor 0).within = false := by
    rw [← Bool.not_eq_true]
    intro h
    have hmem := Coding.mem_withinFactors.mpr ⟨hcount ▸ Nat.one_pos, h⟩
    rw [hwithin] at hmem
    exact List.not_mem_nil hmem
  rw [Coding.betweenFactors, hcount]
  show [0].filter _ = [0]
  rw [List.filter_cons, hzero]
  rfl

/-- The source of the only factor has no sub-source. -/
theorem subSources_oneFactor : d.subSources (.span [0]) = [] := by
  have hset : (Source.span [0]).toFinset = {0} := by decide
  refine List.eq_nil_iff_forall_not_mem.mpr fun t ht => ?_
  obtain ⟨hlt, hne⟩ := Source.mem_properSubsets.mp (List.mem_filter.mp ht).1
  rw [hset, ssubset_singleton_iff] at hlt
  exact hne.ne_empty hlt

section One

variable (hone : d.betweenFactors = [0])

include hone

theorem flags_oneFactor : d.flags d.betweenFactors (.span [0]) = [(d.betweenCellCount, true)] := by
  have hcells : d.betweenCellCount = d.levelCount 0 := by
    rw [Coding.betweenCellCount, Coding.betweenShape, hone]
    exact Nat.mul_one _
  rw [hone, Coding.flags_cons, hcells]
  rfl

theorem sum_positions_oneFactor (g : List ℕ → ℝ) :
    ∑ x ∈ positions (keptShape (d.flags d.betweenFactors (.span [0]))), g x =
      ∑ cell ∈ range d.betweenCellCount, g [cell] := by
  rw [flags_oneFactor hone]
  show ∑ x ∈ positions [d.betweenCellCount], g x = _
  rw [sum_positions_cons]
  exact sum_congr rfl fun cell _ => sum_singleton _ _

theorem inBounds_oneFactor {cell : ℕ} (hcell : cell < d.betweenCellCount) :
    InBounds [cell] (keptShape (d.flags d.betweenFactors (.span [0]))) := by
  rw [flags_oneFactor hone]
  exact ⟨hcell, trivial⟩

/-- The position of a cell is its number. -/
theorem flatIndex_oneFactor (cell : ℕ) : flatIndex [cell] d.betweenShape = cell := by
  rw [Coding.betweenShape, hone]
  have hnil : InBounds [] [] := trivial
  show flatIndex [cell] [d.levelCount 0] = cell
  rw [flatIndex_cons cell _ hnil, flatIndex_nil, cellCount_nil, mul_one, add_zero]

theorem inBounds_betweenShape_oneFactor {cell : ℕ} (hcell : cell < d.betweenCellCount) :
    InBounds [cell] d.betweenShape := by
  have hin := inBounds_oneFactor hone hcell
  rw [flags_oneFactor hone] at hin
  have hshape := congrArg (List.map (·.1)) (flags_oneFactor hone)
  rw [Coding.map_fst_flags] at hshape
  rw [Coding.betweenShape, hshape]
  exact hin

theorem get_marginalCounts_oneFactor {cell : ℕ} (hcell : cell < d.betweenCellCount) :
    (d.meanStatistics.marginalCounts (d.betweenAxes (.span [0]))).get [cell] =
      (d.cellScores cell).length := by
  rw [meanStatistics, get_marginalCounts (inBounds_oneFactor hone hcell), flags_oneFactor hone]
  show (d.statistics (subjectMeans d.scores)).counts.get [cell] = _
  rw [statistics, CellStatistics.get_counts (inBounds_betweenShape_oneFactor hone hcell),
    flatIndex_oneFactor hone, length_cellScores]

namespace Accepted

variable (hd : d.Accepted)

include hd

theorem get_means_oneFactor {cell : ℕ} (hcell : cell < d.betweenCellCount) :
    d.meanStatistics.means.get [cell, 0] = mean (d.cellScores cell) := by
  rw [mean_cellScores, ← hd.cellMean_scoreMatrix_empty, meanStatistics, statistics,
    scoreMatrix_empty]
  have hin := inBounds_betweenShape_oneFactor hone hcell
  exact (CellStatistics.get_means hin Nat.one_pos).trans (by rw [flatIndex_oneFactor hone])

/-- The weighted mean of the cell means is the mean of all subjects. -/
theorem getStretched_weightedMean_oneFactor {cell : ℕ} (hcell : cell < d.betweenCellCount) :
    (d.meanStatistics.weightedMean (d.betweenAxes (.span [0]))).getStretched [cell, 0] =
      mean d.groups.flatten := by
  have hcounts : ∑ x ∈ positions (keptShape (d.flags d.betweenFactors (.span [0]))),
      (d.meanStatistics.marginalCounts (d.betweenAxes (.span [0]))).get x = d.subjectCount := by
    have hlength : ∀ cell ∈ range d.betweenCellCount,
        (d.meanStatistics.marginalCounts (d.betweenAxes (.span [0]))).get [cell] =
          (d.cellScores cell).length := fun cell hcell =>
      get_marginalCounts_oneFactor hone (mem_range.mp hcell)
    rw [sum_positions_oneFactor hone, sum_congr rfl hlength, ← hd.length_flatten_groups,
      List.length_flatten, Nat.cast_list_sum, List.map_map]
    exact (sum_groups fun g => (g.length : ℝ)).symm
  have hsums : ∑ x ∈ positions (keptShape (d.flags d.betweenFactors (.span [0]))),
      (d.meanStatistics.marginalMeans (d.betweenAxes (.span [0]))).get (x ++ [0]) *
        (d.meanStatistics.marginalCounts (d.betweenAxes (.span [0]))).get x =
          d.groups.flatten.sum := by
    have hterm : ∀ cell ∈ range d.betweenCellCount,
        (d.meanStatistics.marginalMeans (d.betweenAxes (.span [0]))).get ([cell] ++ [0]) *
          (d.meanStatistics.marginalCounts (d.betweenAxes (.span [0]))).get [cell] =
            (d.cellScores cell).sum := fun cell hcell => by
      have hcell := mem_range.mp hcell
      have hne := hd.ne_nil_of_mem_groups _ (List.mem_map_of_mem (List.mem_range.mpr hcell))
      rw [get_marginalCounts_oneFactor hone hcell, meanStatistics,
        get_marginalMeans (inBounds_oneFactor hone hcell) Nat.one_pos, flags_oneFactor hone]
      show d.meanStatistics.means.get [cell, 0] * _ = _
      rw [hd.get_means_oneFactor hone hcell, mul_comm, length_mul_mean hne]
    rw [sum_positions_oneFactor hone, sum_congr rfl hterm, List.sum_flatten]
    exact (sum_groups List.sum).symm
  have hpos : (0 : ℝ) < d.subjectCount := Nat.cast_pos.mpr hd.subjectCount_pos
  refine (getStretched_weightedMean (inBounds_oneFactor hone hcell) Nat.one_pos ?_).trans ?_
  · exact hcounts.symm ▸ hpos
  · rw [mean_eq, hd.length_flatten_groups, ← hcounts, ← hsums]
    rfl

/-- The effect of the only factor. -/
theorem get_pureEffect_oneFactor {cell : ℕ} (hcell : cell < d.betweenCellCount) :
    (d.pureEffect d.meanStatistics (.span [0])).get [cell, 0] =
      mean (d.cellScores cell) - mean d.groups.flatten := by
  have heffect : (d.pureEffect (d.statistics (subjectMeans d.scores)) (.span [0])).get
      ([cell] ++ [0]) = _ := get_pureEffect (inBounds_oneFactor hone hcell) Nat.one_pos
  rw [subSources_oneFactor, flags_oneFactor hone, List.map_nil, List.sum_nil, sub_zero] at heffect
  rw [← hd.getStretched_weightedMean_oneFactor hone hcell, ← hd.get_means_oneFactor hone hcell]
  exact heffect

/-- The sum of squares of the only factor. -/
theorem get_hypothesis_oneFactor (hfull : d.fullSource = .span [0]) :
    (d.hypothesis d.meanStatistics (.span [0])).get 0 0 = OneWay.ssHarmonic d.groups := by
  have hterm : ∀ cell ∈ range d.betweenCellCount,
      (d.pureEffect d.meanStatistics (.span [0])).get ([cell] ++ [0]) *
        (d.pureEffect d.meanStatistics (.span [0])).get ([cell] ++ [0]) *
          (d.cellWeight (subjectMeans d.scores) (.span [0]) [cell] *
            joined (d.flags d.betweenFactors (.span [0]))) =
        harmonicMean (d.groups.map fun g => (g.length : ℝ)) *
          (mean (d.cellScores cell) - mean d.groups.flatten) ^ 2 := fun cell hcell => by
    have hjoined : joined (d.flags d.betweenFactors (.span [0])) = 1 := by
      rw [flags_oneFactor hone]
      rfl
    rw [List.singleton_append, hd.get_pureEffect_oneFactor hone (mem_range.mp hcell), hjoined,
      cellWeight, if_pos hfull.symm, harmonicN_eq, Nat.cast_one, mul_one, ← pow_two, mul_comm]
  refine (get_hypothesis Nat.one_pos Nat.one_pos).trans ?_
  rw [sum_positions_oneFactor hone]
  refine (sum_congr rfl hterm).trans ?_
  rw [← mul_sum, OneWay.ssHarmonic, sum_groups]

end Accepted

end One

/-- The test of the only source of a design with one factor between subjects. -/
theorem Accepted.test_oneFactor (hd : d.Accepted) (hcount : d.factorCount = 1)
    (hwithin : d.withinFactors = []) (settings : Settings) :
    d.kindOf (.span [0]) = .between ∧ (d.resultOf settings (.span [0])).test =
      .univariate (OneWay.ssHarmonic d.groups) (OneWay.ssWithin d.groups)
        ((d.groups.length - 1 : ℕ) : ℝ) (d.groups.flatten.length - d.groups.length) := by
  have hone := betweenFactors_oneFactor hcount hwithin
  have hkind : d.kindOf (.span [0]) = .between := by
    rw [hd.kindOf_eq_between_iff, hwithin]
    exact disjoint_empty_right _
  have hfull : d.fullSource = .span [0] := by
    rw [Coding.fullSource, hcount]
    rfl
  have hdf : d.sourceDf (.span [0]) = ((d.groups.length - 1 : ℕ) : ℝ) := by
    have hfactors : (Source.span [0]).factors = [0] := by decide
    have hcells := congrArg (List.map (·.1)) (flags_oneFactor hone)
    rw [Coding.map_fst_flags, hone] at hcells
    rw [sourceDf, Significance.numeratorDf, hfactors, hcells, product_eq_prod, length_groups]
    exact List.prod_singleton
  refine ⟨hkind, ?_⟩
  rw [test_between settings hkind, hd.get_hypothesis_oneFactor hone hfull, hd.meanErrorSs_eq,
    hd.ssWithin_groups, hdf, Significance.betweenDenominatorDf, hd.length_flatten_groups,
    length_groups]

end Design

end SplitPlot
