import Mathlib
import SplitPlot.Proofs.Decomposition.Scores
import SplitPlot.Proofs.Nesting

/-!
# The signs of the sums of squares

A sum of squares says how much worse a model does once the effect of a source has been taken from
it, so it should not be negative.  For a source between subjects it never is.  For every other
source the determinants of the two models are in the right order, and the sum of squares is the
difference of their readings; it is negative exactly if the restricted matrix is near singular while
the full one is not (`anova_ss_nonneg_iff`).

The same case is the only one in which an effect is lost.  A source within subjects that was tested
has a statistic of zero either because the grand means of all its contrast scores are zero, as it
should, or because the determinant of its restricted model was read as zero.  The second happens
where the effect is very large: `parallelScores` is a table of three subjects on which an effect of
ten million against an error of three is reported with a negative sum of squares, a statistic of
zero, a probability of one and no degeneracy.
-/

namespace SplitPlot

open Finset

namespace Design

variable {d : Design ℝ} (hd : d.Accepted) (settings : Settings) {s : Source}

/-! ## Sources between subjects -/

theorem ss_between_nonneg (h : d.kindOf s = .between) : 0 ≤ (d.resultOf settings s).test.ss := by
  rw [test_between settings h, Significance.ss_univariate]
  exact hypothesis_nonneg s

include hd

/-! ## Sources with factors within subjects -/

/-- The sum of squares of every other source is the difference of the readings of nested models. -/
theorem exists_nested (h : d.kindOf s ≠ .between) :
    ∃ m, (d.resultOf settings s).matrices = some m ∧ m.Nested ∧
      (d.resultOf settings s).test.ss = m.restrictedDet - m.fullDet := by
  cases hkind : d.kindOf s with
  | between => exact absurd hkind h
  | within =>
    refine ⟨_, matrices_within settings hkind, hd.nested_within s, ?_⟩
    rw [test_within settings hkind, Significance.ss_withinSubjects]
  | mixed =>
    refine ⟨_, matrices_mixed settings hkind, Accepted.nested_mixed s, ?_⟩
    rw [test_mixed settings hkind, Significance.ss_multivariate]

/-- A source within subjects that was tested has a regular full model, and a statistic of zero
exactly if the grand means of its contrast scores are zero or the restricted model is near singular.
-/
theorem f_within_eq_zero_iff (h : d.kindOf s = .within)
    (htested : (d.resultOf settings s).test.degeneracy = none) :
    0 < (d.withinMatrices s).fullDet ∧
      ((d.resultOf settings s).test.f = 0 ↔ (d.withinMatrices s).restricted.NearSingular ∨
        ∀ x ∈ (d.scoresWithin s).cells.grandMeans, x = 0) := by
  rw [test_within settings h, Significance.withinSubjects] at htested ⊢
  have hpos := (Significance.degeneracy_univariate_eq_none_iff.mp htested).2.2
  have hsubjects : (d.subjectCount : ℝ) ≠ 0 := Nat.cast_ne_zero.mpr hd.subjectCount_pos.ne'
  have hlength : (d.scoresWithin s).cells.grandMeans.length = (d.fullError s).rows := by
    rw [fullError, Mat.rows_crossProduct, scoresWithin, Accepted.cols_scoreResiduals]
    exact variableCount_statistics _
  refine ⟨hpos, ?_⟩
  rw [Significance.f_univariate_eq_zero_iff htested, sub_nonpos,
    (hd.nested_within s).restrictedDet_le_fullDet_iff hpos]
  refine or_congr_right ?_
  show (d.withinRestrictedError s).square (d.fullError s).rows -
    (d.fullError s).square (d.fullError s).rows = 0 ↔ _
  rw [hd.sub_within, smul_eq_zero_iff_right hsubjects, Mat.products_eq_zero_iff, ← hlength]
  constructor
  · intro hzero x hx
    obtain ⟨i, hi, rfl⟩ := List.mem_iff_getElem.mp hx
    rw [← hzero i hi, List.getD_eq_getElem _ _ hi]
  · intro hzero i hi
    rw [List.getD_eq_getElem _ _ hi]
    exact hzero _ (List.getElem_mem hi)

omit hd

/-! ## The table of an analysis -/

/-- **The signs of the sums of squares.**  The sum of squares of a source between subjects is not
negative.  For every other source the determinants of the two models are in the right order; the sum
of squares is the difference of their readings, and it is negative exactly if the restricted matrix
alone is near singular, which a single variable excludes.  A source within subjects that was tested
has a statistic of zero exactly if the restricted matrix is near singular or all grand means are
zero. -/
theorem anova_ss_nonneg_iff {t : ObservationTable ℝ} (ht : t.Built) {settings : Settings}
    {d : Design ℝ} (h : ofTable t settings = .ok d) :
    ∃ table, anova t settings = .ok table ∧
      table.results.map (·.source) = Source.all d.factorCount ∧
      (∀ r ∈ table.results, r.kind = d.kindOf r.source) ∧
      (∀ r ∈ table.results, r.kind = .between → 0 ≤ r.test.ss) ∧
      (∀ r ∈ table.results, r.kind ≠ .between → ∃ m, r.matrices = some m ∧
        r.test.ss = m.restrictedDet - m.fullDet ∧
        0 ≤ m.full.det ∧ m.full.det ≤ m.restricted.det ∧
        (m.fullDet ≤ m.restrictedDet ↔ m.full.NearSingular ∨ ¬ m.restricted.NearSingular) ∧
        (0 ≤ r.test.ss ↔ m.full.NearSingular ∨ ¬ m.restricted.NearSingular) ∧
        (0 < m.restrictedDet → m.fullDet / m.restrictedDet ≤ 1) ∧
        (m.variableCount = 1 → 0 ≤ r.test.ss)) ∧
      ∀ r ∈ table.results, r.kind = .within → r.test.degeneracy = none → ∀ m, r.matrices = some m →
        0 < m.fullDet ∧ (r.test.f = 0 ↔ m.restricted.NearSingular ∨
          ∀ x ∈ (d.scoresWithin r.source).cells.grandMeans, x = 0) := by
  have hd := accepted_of_ofTable ht h
  refine ⟨_, anova_eq_ok ht h, ?_, ?_, ?_, ?_, ?_⟩
  · rw [List.map_map]
    exact (List.map_congr_left fun s _ => source_resultOf settings s).trans (List.map_id _)
  · intro r hr
    obtain ⟨s, -, rfl⟩ := List.mem_map.mp hr
    rw [kind_resultOf, source_resultOf]
  · intro r hr hkind
    obtain ⟨s, -, rfl⟩ := List.mem_map.mp hr
    exact ss_between_nonneg settings ((kind_resultOf settings s).symm.trans hkind)
  · intro r hr hkind
    obtain ⟨s, -, rfl⟩ := List.mem_map.mp hr
    rw [kind_resultOf] at hkind
    obtain ⟨m, hm, hnested, hss⟩ := exists_nested hd settings hkind
    have horder : m.fullDet ≤ m.restrictedDet ↔
        m.full.NearSingular ∨ ¬ m.restricted.NearSingular := by
      rw [← not_lt, hnested.restrictedDet_lt_fullDet_iff, not_and_or, not_not]
    refine ⟨m, hm, hss, hnested.det_full_nonneg, hnested.det_full_le_det_restricted, horder, ?_, ?_,
      fun hone => ?_⟩
    · rw [hss, sub_nonneg, horder]
    · intro hpos
      rw [div_le_one hpos, horder]
      exact .inr (hnested.restrictedDet_pos_iff.mp hpos)
    · rw [hss, sub_nonneg]
      exact hnested.fullDet_le_restrictedDet_of_variableCount hone
  · intro r hr hkind htested m hm
    obtain ⟨s, -, rfl⟩ := List.mem_map.mp hr
    rw [kind_resultOf] at hkind
    rw [matrices_within settings hkind, Option.some.injEq] at hm
    rw [← hm, source_resultOf]
    exact f_within_eq_zero_iff hd settings hkind htested

/-! ## A large effect -/

/-- Three subjects with a large and almost equal increase from the second level to the third. -/
noncomputable def parallelScores : ObservationTable ℝ :=
  wholeTable 1 [(1, [0], 0), (1, [1], 0), (1, [2], 10000000), (2, [0], 3), (2, [1], 0),
    (2, [2], 10000000), (3, [0], 0), (3, [1], 2), (3, [2], 10000000)]

/-- The design of the three subjects. -/
noncomputable def parallelDesign : Design ℝ := (tableCoding parallelScores {}).toDesign

theorem built_parallelScores : parallelScores.Built := built_wholeTable (by decide) (by decide)

theorem ofTable_parallelScores : ofTable parallelScores {} = .ok parallelDesign := rfl

theorem accepted_parallelDesign : parallelDesign.Accepted :=
  accepted_of_ofTable built_parallelScores ofTable_parallelScores

/-- The contrast scores of the only source. -/
noncomputable def parallelColumns : Mat ℝ := parallelDesign.contrastColumns (.span [0])

/-- What the full model leaves of them. -/
noncomputable def parallelResiduals : Mat ℝ :=
  parallelDesign.scoreResiduals (parallelDesign.scoresOf (.span [0]))

/-- Their grand means. -/
noncomputable def parallelMeans : List ℝ := (parallelDesign.scoresOf (.span [0])).cells.grandMeans

theorem scoresWithin_parallelDesign :
    parallelDesign.scoresWithin (.span [0]) = parallelDesign.scoresOf (.span [0]) := by
  have h : (Source.span [0]).intersection parallelDesign.withinMask = .span [0] := by decide
  rw [scoresWithin, h]

theorem fullError_parallelDesign :
    parallelDesign.fullError (.span [0]) = parallelResiduals.crossProduct := by
  rw [fullError, scoresWithin_parallelDesign, parallelResiduals]

theorem withinRestrictedError_parallelDesign : parallelDesign.withinRestrictedError (.span [0]) =
    (parallelResiduals.addRow parallelMeans).crossProduct := by
  rw [withinRestrictedError, scoresWithin_parallelDesign, parallelResiduals, parallelMeans]

theorem score_parallelDesign {k : ℕ} (hk : k < 3) :
    parallelDesign.score k [0] = [0, 3, 0].getD k 0 ∧
      parallelDesign.score k [1] = [0, 0, 2].getD k 0 ∧
      parallelDesign.score k [2] = 10000000 := by
  interval_cases k
  all_goals exact ⟨(mean_singleton _).trans (by simp), (mean_singleton _).trans (by simp),
    (mean_singleton _).trans (by simp)⟩

theorem get_parallelColumns {k : ℕ} (hk : k < 3) :
    parallelColumns.get k 0 = [10000000, 9999997, 10000000].getD k 0 / √2 ∧
      parallelColumns.get k 1 = [10000000, 10000003, 9999996].getD k 0 / √6 := by
  have hflags : parallelDesign.flags parallelDesign.withinFactors (.span [0]) = [(3, true)] := by
    decide
  obtain ⟨h0, h1, h2⟩ := score_parallelDesign hk
  obtain ⟨hlinear, hquadratic⟩ := accepted_parallelDesign.get_contrastColumns_three hflags hk
  rw [parallelColumns, hlinear, hquadratic, h0, h1, h2]
  interval_cases k <;> norm_num

theorem get_parallelResiduals {k j : ℕ} (hk : k < 3) (hj : j < 2) :
    parallelResiduals.get k j = parallelColumns.get k j -
      (parallelColumns.get 0 j + parallelColumns.get 1 j + parallelColumns.get 2 j) / 3 := by
  have hcell : ∀ k < 3, parallelDesign.subjectCells.getD k 0 = 0 := by decide
  have hcells : parallelDesign.subjectCells = [0, 0, 0] := by decide
  have hrows : CellStatistics.rowsIn [0, 0, 0] 0 = range 3 := by decide
  have hcount : (([0, 0, 0] : List ℕ).count 0 : ℝ) = 3 := by norm_num
  rw [parallelResiduals, accepted_parallelDesign.get_scoreResiduals _ hk hj, hcell k hk,
    CellStatistics.cellMean_eq, hcells, hrows, hcount, sum_range_succ, sum_range_succ,
    sum_range_one, parallelColumns]

theorem getD_parallelMeans {j : ℕ} (hj : j < 2) : parallelMeans.getD j 0 =
    (parallelColumns.get 0 j + parallelColumns.get 1 j + parallelColumns.get 2 j) / 3 := by
  have hrows : (parallelDesign.contrastColumns (.span [0])).rows = 3 := rfl
  rw [parallelMeans, scoresOf, statistics, CellStatistics.getD_grandMeans hj (by decide), hrows,
    sum_range_succ, sum_range_succ, sum_range_one, parallelColumns, Nat.cast_ofNat]

/-- The full model leaves a regular matrix. -/
theorem not_nearSingular_full : ¬ (parallelDesign.fullError (.span [0])).NearSingular := by
  let x : ℕ → ℝ := fun k => [1, -2, 1].getD k 0
  let y : ℕ → ℝ := fun k => [1 / 3, 10 / 3, -11 / 3].getD k 0
  have hentries : ∀ k < 3,
      parallelResiduals.get k 0 = x k / √2 ∧ parallelResiduals.get k 1 = y k / √6 := fun k hk => by
    rw [get_parallelResiduals hk (by decide), get_parallelResiduals hk (by decide)]
    simp only [get_parallelColumns, hk, Nat.zero_lt_succ, Nat.one_lt_ofNat, Nat.lt_add_one, x, y]
    interval_cases k <;> constructor <;> simp <;> ring
  have hrows : parallelResiduals.rows = 3 := rfl
  obtain ⟨hdet, hdiagonal⟩ := Mat.det_crossProduct_two (a := parallelResiduals) rfl
    (x := x) (y := y) (by norm_num : (0 : ℝ) ≤ 2) (by norm_num : (0 : ℝ) ≤ 6)
    (fun k hk => (hentries k (hrows ▸ hk)).1) fun k hk => (hentries k (hrows ▸ hk)).2
  rw [Mat.NearSingular, fullError_parallelDesign, hdet, hdiagonal, hrows]
  show ¬ _ ≤ _ * (1e-12 : ℝ)
  simp only [sum_range_succ, sum_range_zero, x, y]
  norm_num

/-- The restricted model leaves a matrix whose columns are nearly parallel. -/
theorem nearSingular_restricted :
    (parallelDesign.withinRestrictedError (.span [0])).NearSingular := by
  let x : ℕ → ℝ := fun k => [10000000, 9999997, 10000000].getD k 0
  let y : ℕ → ℝ := fun k => [10000000, 10000003, 9999996].getD k 0
  have hentries : ∀ k < 3, (parallelResiduals.addRow parallelMeans).get k 0 = x k / √2 ∧
      (parallelResiduals.addRow parallelMeans).get k 1 = y k / √6 := fun k hk => by
    rw [Mat.get_addRow _ hk (by decide), Mat.get_addRow _ hk (by decide),
      get_parallelResiduals hk (by decide), get_parallelResiduals hk (by decide),
      getD_parallelMeans (by decide), getD_parallelMeans (by decide), sub_add_cancel,
      sub_add_cancel]
    exact get_parallelColumns hk
  have hrows : (parallelResiduals.addRow parallelMeans).rows = 3 := rfl
  obtain ⟨hdet, hdiagonal⟩ := Mat.det_crossProduct_two (a := parallelResiduals.addRow parallelMeans)
    rfl (x := x) (y := y) (by norm_num : (0 : ℝ) ≤ 2) (by norm_num : (0 : ℝ) ≤ 6)
    (fun k hk => (hentries k (hrows ▸ hk)).1) fun k hk => (hentries k (hrows ▸ hk)).2
  rw [Mat.NearSingular, withinRestrictedError_parallelDesign, hdet, hdiagonal, hrows]
  show _ ≤ _ * (1e-12 : ℝ)
  simp only [sum_range_succ, sum_range_zero, x, y]
  norm_num

theorem degeneracy_parallelDesign :
    (parallelDesign.resultOf {} (.span [0])).test.degeneracy = none := by
  have hnested := accepted_parallelDesign.nested_within (.span [0])
  have hdf : (parallelDesign.sourceDf (.span [0]) : ℝ) = 2 := by
    show product [((2 : ℕ) : ℝ)] = 2
    rw [product_eq_prod, List.prod_singleton, Nat.cast_ofNat]
  have hdfDen : (Significance.withinDenominatorDf parallelDesign.subjectCount
      parallelDesign.betweenCellCount 2 : ℝ) = 1 := by
    show ((3 : ℕ) : ℝ) - ((1 : ℕ) : ℝ) - 2 + 1 = 1
    norm_num
  rw [test_within {} (by decide), Significance.withinSubjects,
    Significance.degeneracy_univariate_eq_none_iff, hdf, hdfDen]
  exact ⟨two_pos, one_pos, hnested.fullDet_pos_iff.mpr not_nearSingular_full⟩

theorem parallelMeans_ne_zero : ∃ x ∈ parallelMeans, x ≠ 0 := by
  have hlength : parallelMeans.length = 2 := rfl
  have hzero : parallelMeans.getD 0 0 ≠ 0 := by
    rw [getD_parallelMeans (by decide), (get_parallelColumns (k := 0) (by decide)).1,
      (get_parallelColumns (k := 1) (by decide)).1, (get_parallelColumns (k := 2) (by decide)).1]
    simp only [List.getD_cons_zero, List.getD_cons_succ]
    positivity
  rw [List.getD_eq_getElem _ _ (hlength ▸ Nat.two_pos)] at hzero
  exact ⟨_, List.getElem_mem _, hzero⟩

/-- A large effect of the three subjects is reported with a negative sum of squares and a statistic
of zero, and no degeneracy is reported. -/
theorem lost_effect_parallelScores : parallelScores.Built ∧
    ofTable parallelScores {} = .ok parallelDesign ∧
    ∃ table, anova parallelScores {} = .ok table ∧ ∃ r ∈ table.results, r.kind = .within ∧
      r.test.ss < 0 ∧ r.test.f = 0 ∧ r.test.degeneracy = none ∧
      ∃ x ∈ (parallelDesign.scoresWithin r.source).cells.grandMeans, x ≠ 0 := by
  obtain ⟨table, htable, hsources, hkinds, -, hother, hwithin⟩ :=
    anova_ss_nonneg_iff built_parallelScores ofTable_parallelScores
  have hanova := anova_eq_ok built_parallelScores ofTable_parallelScores
  have hresults : table = _ := Except.ok.inj (htable.symm.trans hanova)
  have hkind : parallelDesign.kindOf (.span [0]) = .within := by decide
  have hmem : parallelDesign.resultOf {} (.span [0]) ∈ table.results := by
    rw [hresults]
    exact List.mem_map_of_mem (by decide)
  have hrkind : (parallelDesign.resultOf {} (.span [0])).kind = .within :=
    (kind_resultOf {} _).trans hkind
  obtain ⟨m, hm, -, -, -, -, hss, -, -⟩ := hother _ hmem (by rw [hrkind]; decide)
  obtain ⟨-, hf⟩ := hwithin _ hmem hrkind degeneracy_parallelDesign m hm
  rw [matrices_within {} hkind, Option.some.injEq] at hm
  subst hm
  refine ⟨built_parallelScores, ofTable_parallelScores, table, htable, _, hmem, hrkind, ?_, ?_,
    degeneracy_parallelDesign, ?_⟩
  · rw [← not_le, hss]
    exact fun h => h.elim not_nearSingular_full fun h => h nearSingular_restricted
  · exact hf.mpr (.inl nearSingular_restricted)
  · rw [source_resultOf, scoresWithin_parallelDesign]
    exact parallelMeans_ne_zero

end Design

end SplitPlot
