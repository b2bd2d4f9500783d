import Mathlib
import SplitPlot.Proofs.Decomposition.ClosedForm
import SplitPlot.Proofs.Relabelling.Results
import SplitPlot.Proofs.Relabelling.Runs

/-!
# Data without error

Where the subjects of a cell agree in all their scores, nothing is left for the error of a model.
Such data are no fault: the run reports an error of zero for every source, and the test of every
source as one that could not be carried out (`anova_errorFree`).  A design with one subject in each
cell is of this kind, and so is one in which all values are the same, which has no sum of squares
either.

The zero goes through every stage exactly.

* A score, the mean of a subject or a contrast score, is a sum over the cells within subjects, so
  the subjects of a cell have the same scores (`ErrorFree.get_scoreMatrix_eq`) and no residuals
  (`ErrorFree.get_residuals`).
* A cross product without residuals has a zero on its diagonal, and a determinant with a zero on the
  diagonal is read as zero (`Mat.sscpDet_of_get_eq_zero`).  That needs a column: a factor within
  subjects has at least two levels, since it varies, and so at least one contrast.
* Of equal values every contrast score is zero, and the means of the cells are the same everywhere,
  so they have no effect (`Accepted.effectAt_of_forall_eq`).

Whatever the data, a test that gives a reason reports nothing besides, and one that gives none had
degrees of freedom and an error (`saysNothing_test`, `pos_of_degeneracy_eq_none`).
-/

namespace SplitPlot

open Finset

/-- A matrix with a zero on its diagonal is read as singular. -/
theorem Mat.sscpDet_of_get_eq_zero {a : Mat ℝ} (hrows : 0 < a.rows) (h : a.get 0 0 = 0) :
    a.sscpDet = 0 := by
  have hzero : product a.diagonal = 0 := by
    have hentry : a.square a.rows ⟨0, hrows⟩ ⟨0, hrows⟩ = 0 := h
    rw [product_diagonal]
    exact prod_eq_zero (mem_univ _) hentry
  exact if_pos (.inr (.inl hzero.le))

namespace Design

variable {d : Design ℝ}

/-- The subjects of a cell have the same score in each cell within subjects. -/
def ErrorFree (d : Design ℝ) : Prop :=
  ∀ i < d.subjectCount, ∀ i' < d.subjectCount,
    d.subjectCells.getD i 0 = d.subjectCells.getD i' 0 →
      ∀ x ∈ positions d.withinShape, d.score i x = d.score i' x

/-! ## Tests -/

section Tests

variable (settings : Settings) (s : Source)

/-- A test that gives a reason reports nothing besides. -/
theorem saysNothing_test (h : (d.resultOf settings s).test.degeneracy ≠ none) :
    (d.resultOf settings s).test.SaysNothing := by
  cases hkind : d.kindOf s with
  | between =>
    rw [test_between settings hkind] at h ⊢
    exact Significance.saysNothing_univariate h
  | within =>
    rw [test_within settings hkind] at h ⊢
    exact Significance.saysNothing_univariate h
  | mixed =>
    rw [test_mixed settings hkind] at h ⊢
    exact Significance.saysNothing_multivariate h

/-- A test that gives no reason had degrees of freedom and an error. -/
theorem pos_of_degeneracy_eq_none (h : (d.resultOf settings s).test.degeneracy = none) :
    0 < (d.resultOf settings s).test.dfNum ∧ 0 < (d.resultOf settings s).test.dfDen ∧
      0 < (d.resultOf settings s).test.errorSs := by
  cases hkind : d.kindOf s with
  | between =>
    rw [test_between settings hkind] at h ⊢
    rw [Significance.dfNum_univariate, Significance.dfDen_univariate,
      Significance.errorSs_univariate]
    exact Significance.degeneracy_univariate_eq_none_iff.mp h
  | within =>
    rw [test_within settings hkind] at h ⊢
    rw [Significance.withinSubjects] at h ⊢
    rw [Significance.dfNum_univariate, Significance.dfDen_univariate,
      Significance.errorSs_univariate]
    exact Significance.degeneracy_univariate_eq_none_iff.mp h
  | mixed =>
    rw [test_mixed settings hkind] at h ⊢
    rw [Significance.dfNum_multivariate, Significance.dfDen_multivariate,
      Significance.errorSs_multivariate]
    obtain ⟨hnum, -, herror, hden⟩ := Significance.degeneracy_multivariate_eq_none_iff.mp h
    exact ⟨hnum, hden, herror⟩

/-- So without an error a test gives a reason. -/
theorem degeneracy_ne_none (h : (d.resultOf settings s).test.errorSs = 0) :
    (d.resultOf settings s).test.degeneracy ≠ none := by
  intro hnone
  exact (pos_of_degeneracy_eq_none settings s hnone).2.2.ne' h

end Tests

/-! ## Scores of subjects that agree -/

section Agreeing

variable (hd : d.Accepted) {T : Finset ℕ} (hT : T ⊆ d.withinFactors.toFinset)

include hd hT

/-- A source has at least one score for its factors within subjects. -/
theorem Accepted.cols_scoreMatrix_pos (hlevels : ∀ f ∈ d.withinFactors, 2 ≤ d.levelCount f) :
    0 < (d.scoreMatrix T).cols := by
  rw [hd.cols_scoreMatrix hT]
  refine Accepted.cellCount_pos fun n hn => ?_
  obtain ⟨l, hl, rfl⟩ := List.mem_map.mp hn
  obtain ⟨a, ha, rfl⟩ := List.mem_map.mp hl
  obtain ⟨f, hf, rfl⟩ := List.mem_map.mp (List.mem_of_mem_filter ha)
  have htwo := hlevels f hf
  show 0 < d.levelCount f - 1
  omega

variable (hfree : d.ErrorFree)

include hfree

/-- The subjects of a cell have the same mean and the same contrast scores. -/
theorem ErrorFree.get_scoreMatrix_eq {i i' j : ℕ} (hi : i < d.subjectCount)
    (hi' : i' < d.subjectCount) (hcell : d.subjectCells.getD i 0 = d.subjectCells.getD i' 0)
    (hj : j < (d.scoreMatrix T).cols) : (d.scoreMatrix T).get i j = (d.scoreMatrix T).get i' j := by
  rw [hd.get_scoreMatrix hT hi hj, hd.get_scoreMatrix hT hi' hj]
  refine congrArg (· / _) (sum_congr rfl fun x hx => ?_)
  rw [hfree i hi i' hi' hcell x hx]

/-- The mean of a cell is the score of each of its subjects. -/
theorem ErrorFree.cellMeanAt_placement {i j : ℕ} (hi : i < d.subjectCount)
    (hj : j < (d.scoreMatrix T).cols) :
    d.cellMeanAt (d.scoreMatrix T) j (d.placement i) = (d.scoreMatrix T).get i j := by
  have hin := hd.coherent.inBounds_placement hi
  have hrow : ∀ k ∈ CellStatistics.rowsIn d.subjectCells (flatIndex (d.placement i) d.betweenShape),
      (d.scoreMatrix T).get k j = (d.scoreMatrix T).get i j := by
    intro k hk
    obtain ⟨hlt, hcell⟩ := CellStatistics.mem_rowsIn.mp hk
    rw [hd.length_subjectCells] at hlt
    exact hfree.get_scoreMatrix_eq hd hT hlt hi (hcell.trans (hd.getD_subjectCells hi).symm) hj
  have hcount : (d.subjectCells.count (flatIndex (d.placement i) d.betweenShape) : ℝ) ≠ 0 :=
    Nat.cast_ne_zero.mpr (List.count_pos_iff.mpr (hd.mem_subjectCells (flatIndex_lt hin))).ne'
  rw [cellMeanAt_eq_div hin hj, sum_congr rfl hrow, sum_const, CellStatistics.card_rowsIn,
    nsmul_eq_mul, mul_div_cancel_left₀ _ hcount]

theorem ErrorFree.get_residuals {i j : ℕ} (hi : i < d.subjectCount)
    (hj : j < (d.scoreMatrix T).cols) :
    ((d.statistics (d.scoreMatrix T)).residuals (d.scoreMatrix T) d.subjectCells).get i j = 0 := by
  rw [hd.get_residuals (hd.rows_scoreMatrix T) hi hj, hfree.cellMeanAt_placement hd hT hi hj,
    sub_self]

/-- The full model leaves nothing. -/
theorem ErrorFree.get_crossProduct {j k : ℕ} (hj : j < (d.scoreMatrix T).cols)
    (hk : k < (d.scoreMatrix T).cols) :
    ((d.statistics (d.scoreMatrix T)).residuals (d.scoreMatrix T)
      d.subjectCells).crossProduct.get j k = 0 := by
  rw [Mat.get_crossProduct_eq_sum (by exact hj) (by exact hk)]
  refine sum_eq_zero fun i hi => ?_
  have hi : i < d.subjectCount := (mem_range.mp hi).trans_eq (hd.rows_scoreMatrix T)
  rw [hfree.get_residuals hd hT hi hj, zero_mul]

end Agreeing

/-! ## The error of a source -/

section Error

variable (hd : d.Accepted) (hfree : d.ErrorFree)

include hd hfree

theorem ErrorFree.meanErrorSs_eq_zero : d.meanErrorSs = 0 := by
  have hcols : 0 < (d.scoreMatrix ∅).cols := cols_scoreMatrix_empty (d := d) ▸ Nat.one_pos
  rw [meanErrorSs_eq_get]
  exact hfree.get_crossProduct hd (empty_subset _) hcols hcols

variable (hlevels : ∀ f ∈ d.withinFactors, 2 ≤ d.levelCount f) {s : Source}

include hlevels

theorem ErrorFree.sscpDet_fullError (hkind : d.kindOf s ≠ .between) :
    (d.fullError s).sscpDet = 0 := by
  have hne := hd.withinPart_ne_empty hkind
  have hcols := hd.cols_scoreMatrix_pos (Relabelling.withinPart_subset d s) hlevels
  have hrows := hcols.trans_eq (hd.rows_fullError hne).symm
  refine Mat.sscpDet_of_get_eq_zero hrows ?_
  rw [hd.fullError_eq hne]
  exact hfree.get_crossProduct hd (Relabelling.withinPart_subset d s) hcols hcols

/-- No source has an error. -/
theorem ErrorFree.errorSs_eq_zero (settings : Settings) :
    (d.resultOf settings s).test.errorSs = 0 := by
  cases hkind : d.kindOf s with
  | between =>
    rw [test_between settings hkind, Significance.errorSs_univariate]
    exact hfree.meanErrorSs_eq_zero hd
  | within =>
    rw [test_within settings hkind, Significance.errorSs_withinSubjects]
    exact hfree.sscpDet_fullError hd hlevels (by rw [hkind]; exact nofun)
  | mixed =>
    rw [test_mixed settings hkind, Significance.errorSs_multivariate]
    exact hfree.sscpDet_fullError hd hlevels (by rw [hkind]; exact nofun)

end Error

/-! ## Equal scores -/

section Equal

namespace Accepted

variable (hd : d.Accepted)

include hd

/-- Means that are the same in all cells have no effect. -/
theorem effectAt_of_forall_eq {values : Mat ℝ} {j : ℕ} {c : ℝ}
    (hc : ∀ x ∈ d.cellPositions, d.cellMeanAt values j x = c) {x : List ℕ}
    (hx : x ∈ d.cellPositions) (B : Finset ℕ) : d.effectAt values j B x = 0 := by
  have hnodup := nodup_betweenFactors d.toCoding
  have hmargin : ∀ S, ∀ y ∈ d.cellPositions, d.margin values j S y = c := by
    intro S y hy
    rw [margin, lineKeep_congr hnodup hy hc, lineKeep_const hnodup hy]
  have hcentre : ∀ S, d.centre values j S = c := by
    intro S
    have hpos : 0 < ∑ y ∈ d.cellPositions, d.marginSize values S y :=
      sum_pos (fun y hy => hd.marginSize_pos S hy) ⟨x, hx⟩
    rw [hd.centre_eq_div, sum_congr rfl fun y hy => by rw [hmargin S y hy], ← mul_sum,
      mul_div_cancel_right₀ _ hpos.ne']
  refine sum_eq_zero fun S _ => ?_
  rw [hmargin S x hx, hcentre, sub_self, mul_zero]

variable {v : ℝ} (hv : ∀ i < d.subjectCount, ∀ x ∈ positions d.withinShape, d.score i x = v)

include hv

omit hd in
theorem errorFree_of_forall_eq : d.ErrorFree := by
  intro i hi i' hi' _ x hx
  rw [hv i hi x hx, hv i' hi' x hx]

/-- Of equal scores the means are equal and the contrasts zero. -/
theorem get_scoreMatrix_of_forall_eq {T : Finset ℕ} (hT : T ⊆ d.withinFactors.toFinset) {i j : ℕ}
    (hi : i < d.subjectCount) (hj : j < (d.scoreMatrix T).cols) :
    (d.scoreMatrix T).get i j = if T = ∅ then v else 0 := by
  have hsum :
      ∑ x ∈ positions (d.withinFactors.map d.levelCount), d.score i x * d.cellContrast T j x =
        v * ∑ x ∈ positions (d.withinFactors.map d.levelCount), d.cellContrast T j x := by
    rw [mul_sum]
    exact sum_congr rfl fun x hx => by rw [hv i hi x hx]
  rw [hd.get_scoreMatrix hT hi hj, hsum, mul_div_assoc, hd.sum_cellContrast hT hj, mul_ite, mul_one,
    mul_zero]

/-- The hypothesis matrix of equal scores is zero. -/
theorem get_hypothesis_of_forall_eq {s : Source} (hs : s ∈ Source.all d.factorCount)
    (hkind : d.kindOf s ≠ .within) {j : ℕ} (hj : j < (d.scoreMatrix (d.withinPart s)).cols) :
    (d.hypothesis (d.statistics (d.scoreMatrix (d.withinPart s))) s).get j j = 0 := by
  have hT := Relabelling.withinPart_subset d s
  have hmean : ∀ x ∈ d.cellPositions, d.cellMeanAt (d.scoreMatrix (d.withinPart s)) j x =
      if d.withinPart s = ∅ then v else 0 := by
    intro x hx
    obtain ⟨o, ho, hlevels⟩ := hd.complete.populated x (mem_positions.mp hx)
    have hi := hd.coherent.subject_lt o ho
    have hplace : d.placement o.subject = x := (hd.placement_observation ho).trans hlevels
    rw [← hplace, (errorFree_of_forall_eq hv).cellMeanAt_placement hd hT hi hj,
      hd.get_scoreMatrix_of_forall_eq hv hT hi hj]
  rw [hd.get_hypothesis_eq_sum (hd.mem_all_iff.mp hs).1 (hd.betweenPart_ne_empty hs hkind) hj hj]
  refine sum_eq_zero fun x hx => ?_
  rw [hd.effectAt_of_forall_eq hmean hx, zero_mul, zero_mul]

/-- The contrast scores of equal scores have no grand means. -/
theorem getD_grandMeans_of_forall_eq {T : Finset ℕ} (hT : T ⊆ d.withinFactors.toFinset)
    (hne : T ≠ ∅) {j : ℕ} (hj : j < (d.scoreMatrix T).cols) :
    (d.statistics (d.scoreMatrix T)).grandMeans.getD j 0 = 0 := by
  have hrows := hd.rows_scoreMatrix T
  rw [statistics, CellStatistics.getD_grandMeans hj (hrows ▸ hd.subjectCount_pos), hrows,
    sum_eq_zero, zero_div]
  intro i hi
  rw [hd.get_scoreMatrix_of_forall_eq hv hT (mem_range.mp hi) hj, if_neg hne]

variable (hlevels : ∀ f ∈ d.withinFactors, 2 ≤ d.levelCount f)

include hlevels

theorem sscpDet_withinRestrictedError_of_forall_eq {s : Source} (hkind : d.kindOf s = .within) :
    (d.withinRestrictedError s).sscpDet = 0 := by
  have hT := Relabelling.withinPart_subset d s
  have hne := hd.withinPart_ne_empty (s := s) (by rw [hkind]; exact nofun)
  have hcols := hd.cols_scoreMatrix_pos hT hlevels
  rw [hd.withinRestrictedError_eq hne]
  refine Mat.sscpDet_of_get_eq_zero hcols ?_
  rw [Mat.get_crossProduct_eq_sum (by exact hcols) (by exact hcols)]
  refine sum_eq_zero fun i hi => ?_
  have hi : i < (d.scoreMatrix (d.withinPart s)).rows := mem_range.mp hi
  have hi' := hi.trans_eq (hd.rows_scoreMatrix _)
  rw [Mat.get_addRow _ (by exact hi) (by exact hcols),
    (errorFree_of_forall_eq hv).get_residuals hd hT hi' hcols,
    hd.getD_grandMeans_of_forall_eq hv hT hne hcols, add_zero, zero_mul]

theorem sscpDet_mixedRestrictedError_of_forall_eq {s : Source} (hs : s ∈ Source.all d.factorCount)
    (hkind : d.kindOf s = .mixed) : (d.mixedRestrictedError s).sscpDet = 0 := by
  have hT := Relabelling.withinPart_subset d s
  have hne := hd.withinPart_ne_empty (s := s) (by rw [hkind]; exact nofun)
  have hcols := hd.cols_scoreMatrix_pos hT hlevels
  have hrows : 0 < (d.fullError s).rows := hcols.trans_eq (hd.rows_fullError hne).symm
  refine Mat.sscpDet_of_get_eq_zero hrows ?_
  have hfull : (d.fullError s).get 0 0 = 0 := by
    rw [hd.fullError_eq hne]
    exact (errorFree_of_forall_eq hv).get_crossProduct hd hT hcols hcols
  have hhypothesis : (d.hypothesis (d.scoresWithin s).cells s).get 0 0 = 0 := by
    rw [hd.statistics_scoresWithin hne]
    exact hd.get_hypothesis_of_forall_eq hv hs (by rw [hkind]; exact nofun) hcols
  have hsum : (d.mixedRestrictedError s).get 0 0 =
      (d.fullError s).get 0 0 + (d.hypothesis (d.scoresWithin s).cells s).get 0 0 :=
    Mat.get_add hrows hrows
  rw [hsum, hfull, hhypothesis, add_zero]

/-- No source of equal scores has a sum of squares. -/
theorem ss_of_forall_eq {s : Source} (hs : s ∈ Source.all d.factorCount) (settings : Settings) :
    (d.resultOf settings s).test.ss = 0 := by
  have hfree := errorFree_of_forall_eq hv
  cases hkind : d.kindOf s with
  | between =>
    have hempty := hd.withinPart_eq_empty hkind
    have hzero := hd.get_hypothesis_of_forall_eq hv hs (by rw [hkind]; exact nofun) (j := 0)
      (by rw [hempty, cols_scoreMatrix_empty]; exact Nat.one_pos)
    rw [hempty, scoreMatrix_empty] at hzero
    rw [test_between settings hkind, Significance.ss_univariate]
    exact hzero
  | within =>
    have hfull : (d.withinMatrices s).fullDet = 0 :=
      hfree.sscpDet_fullError hd hlevels (by rw [hkind]; exact nofun)
    have hrestricted : (d.withinMatrices s).restrictedDet = 0 :=
      hd.sscpDet_withinRestrictedError_of_forall_eq hv hlevels hkind
    rw [test_within settings hkind, Significance.ss_withinSubjects, hfull, hrestricted, sub_self]
  | mixed =>
    have hfull : (d.mixedMatrices s).fullDet = 0 :=
      hfree.sscpDet_fullError hd hlevels (by rw [hkind]; exact nofun)
    have hrestricted : (d.mixedMatrices s).restrictedDet = 0 :=
      hd.sscpDet_mixedRestrictedError_of_forall_eq hv hlevels hs hkind
    rw [test_mixed settings hkind, Significance.ss_multivariate, hfull, hrestricted, sub_self]

end Accepted

end Equal

/-! ## Tables -/

section Tables

variable {t : ObservationTable ℝ} (ht : t.Built) {settings : Settings}
  (h : ofTable t settings = .ok d)

include ht h

/-- Two averaged rows have the same codes exactly if they have the same levels. -/
theorem levels_code_eq_iff {r q : Observation ℝ} (hr : r ∈ t.averages) (hq : q ∈ t.averages) :
    (∀ f < t.factorCount,
      (code t.averages (settings.resolveNames t.factorCount) r).levels.getD f 0 =
        (code t.averages (settings.resolveNames t.factorCount) q).levels.getD f 0) ↔
      r.levels = q.levels := by
  obtain ⟨hadm, -, -⟩ := (ofTable_eq_ok_iff t settings d).mp h
  have hlen := length_levels_averages ht
  have hcode : ∀ f < t.factorCount,
      ((code t.averages (settings.resolveNames t.factorCount) r).levels.getD f 0 =
        (code t.averages (settings.resolveNames t.factorCount) q).levels.getD f 0 ↔
          r.levels[f]? = q.levels[f]?) := by
    intro f hf
    rw [← hadm.length_names] at hf
    exact getD_levels_code_inj hq ((hlen r hr).trans hadm.length_names.symm)
      ((hlen q hq).trans hadm.length_names.symm) hf
  constructor
  · intro heq
    refine List.ext_getElem? fun f => ?_
    rcases lt_or_ge f t.factorCount with hf | hf
    · exact (hcode f hf).mp (heq f hf)
    · rw [List.getElem?_eq_none (hlen r hr ▸ hf), List.getElem?_eq_none (hlen q hq ▸ hf)]
  · intro heq f hf
    exact (hcode f hf).mpr (by rw [heq])

/-- The subjects of a cell agree exactly if averaged rows with the same levels have the same
value. -/
theorem errorFree_iff : d.ErrorFree ↔
    ∀ r ∈ t.averages, ∀ q ∈ t.averages, r.levels = q.levels → r.value = q.value := by
  have hd := accepted_of_ofTable ht h
  have hobservations := observations_ofTable ht h
  have hcount := factorCount_ofTable ht h
  constructor
  · intro hfree r hr q hq hlevels
    have ho : code t.averages (settings.resolveNames t.factorCount) r ∈ d.observations :=
      hobservations ▸ List.mem_map_of_mem hr
    have ho' : code t.averages (settings.resolveNames t.factorCount) q ∈ d.observations :=
      hobservations ▸ List.mem_map_of_mem hq
    have hcodes := (levels_code_eq_iff ht h hr hq).mpr hlevels
    have hwithin := CodedObservation.levelsAt_eq_iff.mpr fun f hf =>
      hcodes f (hcount ▸ (Coding.mem_withinFactors.mp hf).1)
    have hbetween := CodedObservation.levelsAt_eq_iff.mpr fun f hf =>
      hcodes f (hcount ▸ (Coding.mem_betweenFactors.mp hf).1)
    have hcell := (hd.getD_subjectCells_observation ho).trans
      ((congrArg (flatIndex · _) hbetween).trans (hd.getD_subjectCells_observation ho').symm)
    have hscores := hfree _ (hd.coherent.subject_lt _ ho) _ (hd.coherent.subject_lt _ ho') hcell _
      (mem_positions.mpr (hd.coherent.inBounds_levelsAt_within ho))
    rw [score, score, hd.get_scores_observation ho, hwithin,
      hd.get_scores_observation ho'] at hscores
    exact hscores
  · intro hvalues i hi i' hi' hcell x hx
    obtain ⟨o, ho, rfl, hlevels⟩ := hd.complete.observed i hi x (mem_positions.mp hx)
    obtain ⟨o', ho', rfl, hlevels'⟩ := hd.complete.observed i' hi' x (mem_positions.mp hx)
    rw [hd.getD_subjectCells_observation ho, hd.getD_subjectCells_observation ho'] at hcell
    have hbetween := eq_of_flatIndex_eq (hd.coherent.inBounds_levelsAt_between ho)
      (hd.coherent.inBounds_levelsAt_between ho') hcell
    have hcodes : ∀ f < t.factorCount, o.levels.getD f 0 = o'.levels.getD f 0 := by
      intro f hf
      rcases Coding.mem_betweenFactors_or_mem_withinFactors (hcount.symm ▸ hf) with hf | hf
      · exact CodedObservation.levelsAt_eq_iff.mp hbetween f hf
      · exact CodedObservation.levelsAt_eq_iff.mp (hlevels.trans hlevels'.symm) f hf
    have hscore := hd.get_scores_observation ho
    have hscore' := hd.get_scores_observation ho'
    rw [hlevels] at hscore
    rw [hlevels'] at hscore'
    rw [score, score, hscore, hscore']
    rw [hobservations] at ho ho'
    obtain ⟨r, hr, rfl⟩ := List.mem_map.mp ho
    obtain ⟨q, hq, rfl⟩ := List.mem_map.mp ho'
    exact hvalues r hr q hq ((levels_code_eq_iff ht h hr hq).mp hcodes)

omit ht h in
/-- The averages of equal values. -/
theorem value_averages_of_forall_eq {v : ℝ} (hv : ∀ r ∈ t.rows, r.value = v) :
    ∀ r ∈ t.averages, r.value = v := by
  intro r hr
  obtain ⟨key, hkey, rfl⟩ := List.mem_map.mp hr
  obtain ⟨o, ho, rfl⟩ := List.mem_map.mp (mem_ascending.mp hkey)
  have hne : (t.rows.filter fun q => q.key == o.key).map (·.value) ≠ [] := by
    rw [Ne, List.map_eq_nil_iff]
    exact List.ne_nil_of_mem (List.mem_filter.mpr ⟨ho, beq_self_eq_true _⟩)
  have hall : (t.rows.filter fun q => q.key == o.key).map (·.value) =
      List.replicate ((t.rows.filter fun q => q.key == o.key).map (·.value)).length v := by
    refine List.eq_replicate_of_mem fun y hy => ?_
    obtain ⟨q, hq, rfl⟩ := List.mem_map.mp hy
    exact hv q (List.mem_of_mem_filter hq)
  have hlen : ((((t.rows.filter fun q => q.key == o.key).map (·.value)).length : ℕ) : ℝ) ≠ 0 :=
    Nat.cast_ne_zero.mpr (mt List.length_eq_zero_iff.mp hne)
  show mean _ = v
  rw [hall, mean_eq, List.sum_replicate, List.length_replicate, nsmul_eq_mul,
    mul_div_cancel_left₀ _ hlen]

/-- Of equal values all scores are equal. -/
theorem score_of_forall_eq {v : ℝ} (hv : ∀ r ∈ t.rows, r.value = v) :
    ∀ i < d.subjectCount, ∀ x ∈ positions d.withinShape, d.score i x = v := by
  have hd := accepted_of_ofTable ht h
  intro i hi x hx
  obtain ⟨o, ho, rfl, rfl⟩ := hd.complete.observed i hi x (mem_positions.mp hx)
  have hscore := hd.get_scores_observation ho
  rw [observations_ofTable ht h] at ho
  obtain ⟨r, hr, rfl⟩ := List.mem_map.mp ho
  exact hscore.trans (value_averages_of_forall_eq hv r hr)

end Tables

/-- With one subject in each cell there is no error. -/
theorem errorFree_of_nodup (hd : d.Accepted) (hone : d.subjectCells.Nodup) : d.ErrorFree := by
  intro i hi i' hi' hcell x _
  have hlt := hd.length_subjectCells.symm ▸ hi
  have hlt' := hd.length_subjectCells.symm ▸ hi'
  rw [List.getD_eq_getElem _ _ hlt, List.getD_eq_getElem _ _ hlt', hone.getElem_inj_iff] at hcell
  rw [hcell]

end Design

open Design in
/-- **Data without error are degenerate and no fault.**  Let a table be a design.

* If averaged rows with the same levels have the same value, which is to say that the subjects of a
  cell have the same score in each cell within subjects, then every result has the error zero, the
  statistic zero, the probability one and a reason.  This is so with one subject in each cell and
  with equal values.
* If all values are equal, every result has the sum of squares zero besides.
* Whatever the data, a result with a reason has the statistic zero, the probability one and no other
  statistic, and a result without one has degrees of freedom and an error. -/
theorem anova_errorFree {t : ObservationTable ℝ} (ht : t.Built) {settings : Settings} {d : Design ℝ}
    (h : ofTable t settings = .ok d) :
    ∃ table, anova t settings = .ok table ∧
      table.results.map (·.source) = Source.all d.factorCount ∧
      (d.ErrorFree ↔
        ∀ r ∈ t.averages, ∀ q ∈ t.averages, r.levels = q.levels → r.value = q.value) ∧
      (d.subjectCells.Nodup → d.ErrorFree) ∧
      (∀ v, (∀ r ∈ t.rows, r.value = v) → d.ErrorFree) ∧
      (d.ErrorFree → ∀ r ∈ table.results,
        r.test.errorSs = 0 ∧ r.test.f = 0 ∧ r.test.p = some 1 ∧ r.test.degeneracy ≠ none) ∧
      (∀ v, (∀ r ∈ t.rows, r.value = v) → ∀ r ∈ table.results, r.test.ss = 0) ∧
      ∀ r ∈ table.results,
        (r.test.degeneracy ≠ none → r.test.f = 0 ∧ r.test.p = some 1 ∧
          r.test.wilksLambda = none ∧ r.test.chiSquare = none) ∧
        (r.test.degeneracy = none → 0 < r.test.dfNum ∧ 0 < r.test.dfDen ∧ 0 < r.test.errorSs) := by
  have hd := accepted_of_ofTable ht h
  have hlevels : ∀ f ∈ d.withinFactors, 2 ≤ d.levelCount f := fun f hf => two_le_levelCount ht h hf
  refine ⟨_, anova_eq_ok ht h, ?_, errorFree_iff ht h, errorFree_of_nodup hd, fun v hv => ?_,
    fun hfree r hr => ?_, fun v hv r hr => ?_, fun r hr => ?_⟩
  · rw [List.map_map]
    exact (List.map_congr_left fun s _ => source_resultOf settings s).trans (List.map_id _)
  · exact Accepted.errorFree_of_forall_eq (score_of_forall_eq ht h hv)
  · obtain ⟨s, -, rfl⟩ := List.mem_map.mp hr
    have herror := hfree.errorSs_eq_zero hd hlevels settings (s := s)
    have hreason := degeneracy_ne_none settings s herror
    obtain ⟨hf, hp, -, -⟩ := saysNothing_test settings s hreason
    exact ⟨herror, hf, hp, hreason⟩
  · obtain ⟨s, hs, rfl⟩ := List.mem_map.mp hr
    exact hd.ss_of_forall_eq (score_of_forall_eq ht h hv) hlevels hs settings
  · obtain ⟨s, -, rfl⟩ := List.mem_map.mp hr
    exact ⟨saysNothing_test settings s, pos_of_degeneracy_eq_none settings s⟩

namespace Design

/-- Two subjects in each of two groups, measured twice, with the same two scores in a group. -/
noncomputable def agreeingGroups : ObservationTable ℝ :=
  wholeTable 2 [(1, [0, 0], 3), (1, [0, 1], 5), (2, [0, 0], 3), (2, [0, 1], 5), (3, [1, 0], 6),
    (3, [1, 1], 7), (4, [1, 0], 6), (4, [1, 1], 7)]

theorem built_agreeingGroups : agreeingGroups.Built := built_wholeTable (by decide) (by decide)

theorem ofTable_agreeingGroups :
    ofTable agreeingGroups {} = .ok (tableCoding agreeingGroups {}).toDesign := rfl

theorem score_agreeingGroups {k : ℕ} (hk : k < 4) :
    (tableCoding agreeingGroups {}).toDesign.score k [0] = [3, 3, 6, 6].getD k 0 ∧
      (tableCoding agreeingGroups {}).toDesign.score k [1] = [5, 5, 7, 7].getD k 0 := by
  interval_cases k
  all_goals exact ⟨(mean_singleton _).trans (by simp), (mean_singleton _).trans (by simp)⟩

theorem errorFree_agreeingGroups : (tableCoding agreeingGroups {}).toDesign.ErrorFree := by
  intro i hi i' hi' hcell x hx
  have hi : i < 4 := hi
  have hi' : i' < 4 := hi'
  have hshape : (tableCoding agreeingGroups {}).toDesign.withinShape = [2] := by decide
  have hcells : (tableCoding agreeingGroups {}).toDesign.subjectCells = [0, 0, 1, 1] := by decide
  rw [hshape, mem_positions] at hx
  rw [hcells] at hcell
  obtain ⟨hfirst, hsecond⟩ := score_agreeingGroups hi
  obtain ⟨hfirst', hsecond'⟩ := score_agreeingGroups hi'
  match x, hx with
  | [a], ⟨ha, _⟩ =>
    interval_cases a
    · rw [hfirst, hfirst']
      interval_cases i <;> interval_cases i' <;> simp_all
    · rw [hsecond, hsecond']
      interval_cases i <;> interval_cases i' <;> simp_all

/-- Groups that agree are analysed, and no source of them is tested. -/
theorem anova_agreeingGroups : agreeingGroups.Built ∧
    ∃ d, ofTable agreeingGroups {} = .ok d ∧ d.ErrorFree ∧
      ∃ table, anova agreeingGroups {} = .ok table ∧ table.results.length = 3 ∧
        ∀ r ∈ table.results,
          r.test.errorSs = 0 ∧ r.test.f = 0 ∧ r.test.p = some 1 ∧ r.test.degeneracy ≠ none := by
  obtain ⟨table, htable, hsources, hfree, -, -, hresults, -, -⟩ :=
    anova_errorFree built_agreeingGroups ofTable_agreeingGroups
  refine ⟨built_agreeingGroups, _, ofTable_agreeingGroups, errorFree_agreeingGroups, table, htable,
    ?_, hresults errorFree_agreeingGroups⟩
  have hlength := congrArg List.length hsources
  rw [List.length_map] at hlength
  exact hlength

end Design

end SplitPlot
