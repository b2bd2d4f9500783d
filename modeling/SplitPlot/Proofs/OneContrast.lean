import Mathlib
import SplitPlot.Proofs.Decomposition.Groups
import SplitPlot.Proofs.Hotelling

/-!
# Sources with a single contrast

A source with factors of both kinds asks whether the groups of subjects differ in their contrast
scores.  With several scores this is a comparison of matrices.  With a single score for each subject
it is the one-way analysis of the scores, and with one factor between subjects and groups of one
size the two are the same, number by number.

## One variable

Wilks' Lambda of one variable is a ratio of two numbers, and Rao's exponent for one variable is one
whatever the number of cells: the fraction under the root is one, or its denominator is zero and the
exponent is set to one.  So the test through Lambda is the test of one variable, whether or not it
is carried out (`Nested.f_multivariate_of_variableCount`).  The one-way analysis of groups is a test
of one variable as well (`OneWay.exists_univariate`), and what is left is to compare the sums of
squares.

## One factor between subjects

The squares of a column of scores are those of the residuals, that of the grand mean, and those of
the sets of factors between subjects.  What the one-way analysis finds within the groups are the
residuals (`ssWithin_column`); so what it finds between them are the sets of factors
(`ssBetween_column`), and one factor has one set.
-/

namespace SplitPlot

open Finset

/-! ## Lambda of one variable -/

namespace Significance

theorem raoExponent_one (k : ℕ) : (raoExponent 1 k : ℝ) = 1 := by
  have hsame : Scalar.square (((1 : ℕ) : ℝ) * (k - 1)) - ((4 : ℕ) : ℝ) =
      ((1 : ℕ) : ℝ) * ((1 : ℕ) : ℝ) + (k - 1) * (k - 1) - ((5 : ℕ) : ℝ) := by
    rw [Scalar.square]
    push_cast
    ring
  rw [raoExponent]
  simp only [isZero_iff, isFinite, true_and]
  split_ifs with hden hpos
  · rfl
  · rw [hsame, div_self hden]
    exact Real.sqrt_one
  · rfl

/-- With one variable the degrees of freedom are those of the groups. -/
theorem raoDenominatorDf_one (k n : ℕ) :
    raoDenominatorDf 1 k n ((k : ℝ) - 1) = (n : ℝ) - k := by
  rw [raoDenominatorDf, raoExponent_one, lambdaFactor, Scalar.half, Scalar.half]
  push_cast
  ring

/-- With exponent one, Lambda itself is converted, and the statistic compares the two errors. -/
theorem lambdaF_one {full restricted dfNum dfDen : ℝ} (hfull : full ≠ 0)
    (hrestricted : restricted ≠ 0) (hnum : dfNum ≠ 0) (hden : dfDen ≠ 0) :
    lambdaF (full / restricted) 1 dfNum dfDen = (restricted - full) / dfNum / (full / dfDen) := by
  have hpow : Scalar.pow (full / restricted) (1 / 1) = full / restricted := by
    rw [div_one]
    exact Real.rpow_one _
  rw [lambdaF, hpow]
  field_simp

end Significance

namespace ErrorMatrices.Nested

variable {m : ErrorMatrices ℝ} (hm : m.Nested) (hone : m.variableCount = 1)

include hm hone

/-- The test of one variable through Wilks' Lambda is the test of one variable. -/
theorem f_multivariate_of_variableCount (k n : ℕ) (dfNum : ℝ) :
    (Significance.multivariate m k n dfNum .rao).f =
        (Significance.withinSubjects m dfNum (Significance.raoDenominatorDf 1 k n dfNum)).f ∧
      (Significance.multivariate m k n dfNum .rao).p =
        (Significance.withinSubjects m dfNum (Significance.raoDenominatorDf 1 k n dfNum)).p := by
  have hle := hm.fullDet_le_restrictedDet_of_variableCount hone
  rw [Significance.withinSubjects]
  by_cases htested : 0 < dfNum ∧ 0 < Significance.raoDenominatorDf 1 k n dfNum ∧ 0 < m.fullDet
  · obtain ⟨hnum, hden, hfull⟩ := htested
    have hrestricted := hfull.trans_le hle
    have hlambda : m.fullDet / m.restrictedDet ≤ 1 := (div_le_one hrestricted).mpr hle
    have hf := Significance.lambdaF_one hfull.ne' hrestricted.ne' hnum.ne' hden.ne'
    rw [Significance.univariate_eq hnum hden hfull, Significance.multivariate]
    simp only [hone, Significance.raoExponent_one, smaller_eq, larger_eq, min_eq_left hlambda, hf]
    rw [if_neg (not_le.mpr hnum), if_neg (not_le.mpr hrestricted), if_neg (not_le.mpr hfull),
      if_neg (not_le.mpr hden)]
    exact ⟨rfl, rfl⟩
  · have hmulti : (Significance.multivariate m k n dfNum .rao).degeneracy ≠ none := by
      rw [Ne, Significance.degeneracy_multivariate_eq_none_iff, hone]
      exact fun h => htested ⟨h.1, h.2.2.2, h.2.2.1⟩
    have huni : (Significance.univariate (m.restrictedDet - m.fullDet) m.fullDet dfNum
        (Significance.raoDenominatorDf 1 k n dfNum)).degeneracy ≠ none := by
      rwa [Ne, Significance.degeneracy_univariate_eq_none_iff]
    obtain ⟨hf, hp, -, -⟩ := Significance.saysNothing_multivariate hmulti
    obtain ⟨hf', hp', -, -⟩ := Significance.saysNothing_univariate huni
    exact ⟨hf.trans hf'.symm, hp.trans hp'.symm⟩

end ErrorMatrices.Nested

/-! ## The one-way analysis as a test -/

namespace OneWay

variable {groups : List (List ℝ)} (hne : ∀ g ∈ groups, g ≠ [])

include hne

/-- The one-way analysis of groups that it accepts is the test of their sums of squares. -/
theorem exists_univariate (hk : 2 ≤ groups.length) (hn : groups.length < groups.flatten.length) :
    ∃ o, ofGroups? groups = some o ∧ o.dfBetween = groups.length - 1 ∧
      o.dfWithin = groups.flatten.length - groups.length ∧
      o.f = (Significance.univariate (ssBetween groups) (ssWithin groups) o.dfBetween
        o.dfWithin).f ∧
      o.p = (Significance.univariate (ssBetween groups) (ssWithin groups) o.dfBetween
        o.dfWithin).p := by
  obtain ⟨o, ho, hbetween, hwithin, hf, hp⟩ := exists_ofGroups? hne hk hn
  have hnum : (0 : ℝ) < o.dfBetween := Nat.cast_pos.mpr (by omega)
  have hden : (0 : ℝ) < o.dfWithin := Nat.cast_pos.mpr (by omega)
  have hss : 0 ≤ ssBetween groups := ssBetween_nonneg hne (List.ne_nil_of_length_pos (by omega))
  obtain ⟨hf', hp'⟩ := Significance.f_univariate hnum hden hss
  have hsame := hf.trans hf'.symm
  exact ⟨o, ho, hbetween, hwithin, hsame, by rw [hp, hp', hsame]⟩

/-- Groups whose scores do not vary are not tested. -/
theorem f_eq_zero_of_forall_eq {o : OneWay ℝ} (ho : ofGroups? groups = some o)
    (hsame : ∀ g ∈ groups, ∀ x ∈ g, ∀ y ∈ g, x = y) : o.f = 0 ∧ o.p = some 1 := by
  unfold ofGroups? at ho
  simp only [ssWithin_eq_zero hne hsame, zero_div, lt_irrefl, if_false] at ho
  split_ifs at ho
  obtain rfl := Option.some.inj ho
  exact ⟨rfl, Significance.fTail_zero _ _⟩

end OneWay

/-! ## The groups of a column -/

namespace Design

variable {d : Design ℝ} {values : Mat ℝ} {j : ℕ}

theorem mean_cellValues_column (cell : ℕ) :
    mean (d.cellValues (values.get · j) cell) =
      CellStatistics.cellMean values d.subjectCells cell j := by
  rw [mean_cellValues, CellStatistics.cellMean_eq]

namespace Accepted

variable (hd : d.Accepted)

include hd

/-- What the one-way analysis finds within the groups are the residuals. -/
theorem ssWithin_column : OneWay.ssWithin (d.groupsOf (values.get · j)) =
    ∑ i ∈ range d.subjectCount, (values.get i j -
      CellStatistics.cellMean values d.subjectCells (d.subjectCells.getD i 0) j) ^ 2 := by
  rw [hd.ssWithin_groupsOf]
  exact sum_congr rfl fun i _ => by rw [mean_cellValues_column]

theorem ssTotal_groupsOf (v : ℕ → ℝ) : OneWay.ssTotal (d.groupsOf v) =
    ∑ i ∈ range d.subjectCount, v i ^ 2 -
      (∑ i ∈ range d.subjectCount, v i) ^ 2 / d.subjectCount := by
  have hsum := hd.sum_flatten_groupsOf v fun y => y
  rw [List.map_id'] at hsum
  rw [OneWay.ssTotal, OneWay.correction, total_eq_sum, total_eq_sum, hsum,
    hd.sum_flatten_groupsOf v, hd.length_flatten_groupsOf, ← pow_two]
  simp only [pow_two]

/-- What it finds between groups of one size are the sets of factors between subjects. -/
theorem ssBetween_column {m : ℕ} (hm : d.Balanced m) (hrows : values.rows = d.subjectCount)
    (hj : j < values.cols) : OneWay.ssBetween (d.groupsOf (values.get · j)) =
      ∑ B ∈ d.betweenFactors.toFinset.powerset.erase ∅, d.partSs m values j B := by
  have hpos : (d.subjectCount : ℝ) ≠ 0 := Nat.cast_ne_zero.mpr hd.subjectCount_pos.ne'
  have hmean : (d.statistics values).grandMeans.getD j 0 =
      (∑ i ∈ range d.subjectCount, values.get i j) / d.subjectCount := by
    rw [statistics, CellStatistics.getD_grandMeans hj (hrows ▸ hd.subjectCount_pos), hrows]
  have hwithin : OneWay.ssWithin (d.groupsOf (values.get · j)) =
      OneWay.ssTotal (d.groupsOf (values.get · j)) -
        OneWay.ssBetween (d.groupsOf (values.get · j)) := rfl
  rw [hd.ssWithin_column, hd.ssTotal_groupsOf, hd.sum_sq_column hm hrows hj, hmean] at hwithin
  have hsquare : (d.subjectCount : ℝ) *
      ((∑ i ∈ range d.subjectCount, values.get i j) / d.subjectCount) ^ 2 =
        (∑ i ∈ range d.subjectCount, values.get i j) ^ 2 / d.subjectCount := by
    field_simp
  linarith

/-! ## One factor between subjects -/

section OneFactor

variable {b : ℕ} (hone : d.betweenFactors = [b])

include hone

omit hd in
theorem betweenCellCount_oneFactor : d.betweenCellCount = d.levelCount b := by
  rw [Coding.betweenCellCount, Coding.betweenShape, hone]
  exact Nat.mul_one _

/-- The group of an observation is its level of the factor. -/
theorem getD_subjectCells_oneFactor {o : CodedObservation ℝ} (ho : o ∈ d.observations) :
    d.subjectCells.getD o.subject 0 = o.levels.getD b 0 := by
  have hnil : InBounds [] [] := trivial
  rw [hd.getD_subjectCells_observation ho, CodedObservation.levelsAt, Coding.betweenShape, hone]
  show flatIndex [o.levels.getD b 0] [d.levelCount b] = _
  rw [flatIndex_cons _ _ hnil, flatIndex_nil, cellCount_nil, mul_one, add_zero]

theorem ssBetween_oneFactor {m : ℕ} (hm : d.Balanced m) (hrows : values.rows = d.subjectCount)
    (hj : j < values.cols) :
    OneWay.ssBetween (d.groupsOf (values.get · j)) = d.partSs m values j {b} := by
  have hsets : d.betweenFactors.toFinset.powerset.erase ∅ = {{b}} := by
    ext B
    rw [hone, List.toFinset_cons, List.toFinset_nil, insert_empty_eq, mem_erase, mem_powerset,
      subset_singleton_iff, mem_singleton]
    exact ⟨fun h => h.2.resolve_left h.1, fun h => ⟨h ▸ singleton_ne_empty b, .inr h⟩⟩
  rw [hd.ssBetween_column hm hrows hj, hsets, sum_singleton]

end OneFactor

/-! ## A single score -/

/-- A product over the factors of a source. -/
theorem prod_factors {s : Source} (hs : s.toFinset ⊆ range d.factorCount) (g : ℕ → ℕ) :
    (s.factors.map g).prod = ∏ f ∈ s.toFinset, g f := by
  have hset : s.factors.toFinset = s.toFinset :=
    Source.toFinset_factors (hs.trans (range_subset_range.mpr hd.factorCount_le))
  rw [← hset, List.prod_toFinset g s.nodup_factors]

section Mixed

variable {s : Source}

omit hd in
/-- A source with factors of both kinds is tested on the scores of its factors within subjects. -/
theorem variableCount_mixedMatrices (s : Source) : (d.mixedMatrices s).variableCount =
    (d.contrastColumns (s.intersection d.withinMask)).cols := by
  show (d.fullError s).rows = _
  rw [fullError, Mat.rows_crossProduct, scoresWithin, cols_scoreResiduals]

section OneColumn

variable (hcols : (d.contrastColumns (s.intersection d.withinMask)).cols = 1)

include hcols

omit hd in
theorem variableCount_oneContrast : (d.mixedMatrices s).variableCount = 1 :=
  (variableCount_mixedMatrices s).trans hcols

/-- The error of the full model is what is left within the groups. -/
theorem get_full_oneContrast : (d.mixedMatrices s).full.get 0 0 = OneWay.ssWithin
    (d.groupsOf ((d.contrastColumns (s.intersection d.withinMask)).get · 0)) := by
  have hpos : 0 < (d.contrastColumns (s.intersection d.withinMask)).cols := hcols ▸ Nat.one_pos
  refine (hd.get_fullError s hpos hpos).trans ?_
  rw [hd.ssWithin_column]
  exact sum_congr rfl fun i _ => (pow_two _).symm

end OneColumn

variable (hs : s ∈ Source.all d.factorCount) (hkind : d.kindOf s = .mixed)

include hkind

/-- The scores of a source with factors of both kinds are those of a source within subjects. -/
theorem kindOf_intersection : d.kindOf (s.intersection d.withinMask) = .within := by
  have hmem := hd.intersection_mem_sourcesWithin (hd.kindOf_eq_mixed_iff.mp hkind).1
  exact beq_iff_eq.mp (List.mem_filter.mp hmem).2

include hs

/-- The degrees of freedom of a source with factors of both kinds. -/
theorem sourceDf_mixed : (d.sourceDf s : ℝ) = ((∏ f ∈ d.betweenPart s, (d.levelCount f - 1)) *
    (d.contrastColumns (s.intersection d.withinMask)).cols : ℕ) := by
  have hsub := (hd.mem_all_iff.mp hs).1
  have hwithin : (s.intersection d.withinMask).toFinset = d.withinPart s := by
    rw [Source.toFinset_intersection, hd.toFinset_withinMask, withinPart]
  have hsub' : (s.intersection d.withinMask).toFinset ⊆ range d.factorCount :=
    hwithin ▸ inter_subset_left.trans hsub
  have hdisjoint : Disjoint (d.betweenPart s) (d.withinPart s) :=
    (Coding.disjoint_factors d.toCoding).mono inter_subset_right inter_subset_right
  rw [hd.cols_contrastColumns_within (hd.kindOf_intersection hkind), hd.prod_factors hsub', hwithin,
    ← prod_union hdisjoint, betweenPart_union_withinPart hsub, sourceDf_eq, hd.prod_factors hsub]

variable {b : ℕ} (hone : d.betweenFactors = [b])

include hone

theorem betweenPart_oneFactor : d.betweenPart s = {b} := by
  have hne := hd.betweenPart_ne_empty hs (by rw [hkind]; decide)
  have hsub : d.betweenPart s ⊆ {b} := fun f hf => by
    have hmem := mem_betweenFactors_of_mem_betweenPart hf
    rw [hone] at hmem
    exact mem_singleton.mpr (List.mem_singleton.mp hmem)
  exact (subset_singleton_iff.mp hsub).resolve_left hne

variable (hcols : (d.contrastColumns (s.intersection d.withinMask)).cols = 1)

include hcols

theorem sourceDf_oneContrast : (d.sourceDf s : ℝ) = (d.levelCount b - 1 : ℕ) := by
  rw [hd.sourceDf_mixed hs hkind, hcols, mul_one, hd.betweenPart_oneFactor hs hkind hone,
    prod_singleton]

variable {m : ℕ} (hm : d.Balanced m)

include hm

/-- The restricted model adds what is found between the groups. -/
theorem get_restricted_oneContrast :
    (d.mixedMatrices s).restricted.get 0 0 = (d.mixedMatrices s).full.get 0 0 + OneWay.ssBetween
      (d.groupsOf ((d.contrastColumns (s.intersection d.withinMask)).get · 0)) := by
  have hrows : 0 < (d.fullError s).rows :=
    Nat.one_pos.trans_eq (variableCount_oneContrast hcols).symm
  have hpos : 0 < (d.contrastColumns (s.intersection d.withinMask)).cols := hcols ▸ Nat.one_pos
  have hpart := hd.betweenPart_oneFactor hs hkind hone
  show (d.fullError s + d.hypothesis (d.scoresWithin s).cells s).get 0 0 = _
  rw [Mat.get_add hrows (hrows.trans_eq (Mat.isSquare_crossProduct _)),
    hd.ssBetween_oneFactor hone hm (hd.rows_contrastColumns _) hpos, ← hpart]
  exact congrArg _ (hd.get_hypothesis_balanced hm hpos (hd.mem_all_iff.mp hs).1
    (hpart ▸ singleton_ne_empty b))

/-- The test of a single contrast is that of the sums of squares of its groups. -/
theorem test_oneContrast {settings : Settings} (hrao : settings.lambdaTest = .rao)
    {groups : List (List ℝ)}
    (hgroups : groups = d.groupsOf ((d.contrastColumns (s.intersection d.withinMask)).get · 0))
    {dfNum dfDen : ℝ} (hnum : dfNum = (d.levelCount b - 1 : ℕ))
    (hden : dfDen = Significance.raoDenominatorDf 1 (d.levelCount b) d.subjectCount dfNum) :
    (d.resultOf settings s).test.f =
        (Significance.univariate (OneWay.ssBetween groups) (OneWay.ssWithin groups) dfNum dfDen).f ∧
      (d.resultOf settings s).test.p =
        (Significance.univariate (OneWay.ssBetween groups) (OneWay.ssWithin groups) dfNum dfDen).p ∧
      (d.resultOf settings s).test.dfNum = dfNum ∧ (d.resultOf settings s).test.dfDen = dfDen := by
  -- the determinants are the entries
  have hnested := nested_mixed (d := d) s
  have hcount := variableCount_oneContrast hcols
  have hfull : (d.mixedMatrices s).fullDet = OneWay.ssWithin groups := by
    rw [hnested.fullDet_of_variableCount hcount, hd.get_full_oneContrast hcols, hgroups]
  have hrestricted : (d.mixedMatrices s).restrictedDet =
      OneWay.ssWithin groups + OneWay.ssBetween groups := by
    rw [hnested.restrictedDet_of_variableCount hcount,
      hd.get_restricted_oneContrast hs hkind hone hcols hm, hd.get_full_oneContrast hcols, hgroups]
  obtain ⟨hf, hp⟩ := hnested.f_multivariate_of_variableCount hcount (d.levelCount b)
    d.subjectCount dfNum
  rw [Significance.withinSubjects, ← hden, hrestricted, hfull, add_sub_cancel_left] at hf hp
  rw [test_mixed settings hkind, hrao, hd.sourceDf_oneContrast hs hkind hone hcols,
    betweenCellCount_oneFactor hone, ← hnum]
  refine ⟨hf, hp, Significance.dfNum_multivariate _ _ _ _ _, ?_⟩
  rw [Significance.dfDen_multivariate, hcount, hden]

/-- The one-way analysis of the groups is possible, and it is the test of the contrast. -/
theorem exists_ofGroups?_oneContrast {settings : Settings} (hrao : settings.lambdaTest = .rao)
    (hk : 2 ≤ d.levelCount b) (hn : d.levelCount b < d.subjectCount) : ∃ o,
    OneWay.ofGroups? (d.groupsOf ((d.contrastColumns (s.intersection d.withinMask)).get · 0)) =
      some o ∧ (d.resultOf settings s).test.f = o.f ∧ (d.resultOf settings s).test.p = o.p ∧
      (d.resultOf settings s).test.dfNum = o.dfBetween ∧
      (d.resultOf settings s).test.dfDen = o.dfWithin := by
  set groups := d.groupsOf ((d.contrastColumns (s.intersection d.withinMask)).get · 0) with hgroups
  have hlength : groups.length = d.levelCount b := by
    rw [hgroups, length_groupsOf, betweenCellCount_oneFactor hone]
  have hflatten : groups.flatten.length = d.subjectCount := hd.length_flatten_groupsOf _
  obtain ⟨o, ho, hbetween, hwithin, hf, hp⟩ := OneWay.exists_univariate
    (hd.ne_nil_of_mem_groupsOf _) (hk.trans_eq hlength.symm) (by rwa [hlength, hflatten])
  rw [hlength] at hbetween hwithin
  rw [hflatten] at hwithin
  -- the degrees of freedom, as Rao's approximation forms them
  have hdfDen : (o.dfWithin : ℝ) = Significance.raoDenominatorDf 1 (d.levelCount b) d.subjectCount
      (o.dfBetween : ℝ) := by
    rw [hbetween, Nat.cast_pred (by omega), Significance.raoDenominatorDf_one, hwithin,
      Nat.cast_sub hn.le]
  obtain ⟨hf', hp', hnum, hden⟩ :=
    hd.test_oneContrast hs hkind hone hcols hm hrao hgroups (congrArg _ hbetween) hdfDen
  exact ⟨o, ho, hf'.trans hf.symm, hp'.trans hp.symm, hnum, hden⟩

end Mixed

end Accepted

/-- **One contrast between groups of one size.**  With one factor between subjects, the test of a
source with factors of both kinds that has one contrast score for each subject is, under Rao's
approximation, the one-way analysis of these scores, grouped by the level of the factor.  Neither is
carried out if the scores do not vary inside the groups. -/
theorem anova_mixed_eq_ofGroups {t : ObservationTable ℝ} (ht : t.Built) {settings : Settings}
    (hrao : settings.lambdaTest = .rao) {d : Design ℝ} (h : ofTable t settings = .ok d) {b : ℕ}
    (hone : d.betweenFactors = [b]) (hk : 2 ≤ d.levelCount b) {m : ℕ} (hm : d.Balanced m)
    (hn : d.levelCount b < d.subjectCount) :
    (∀ o ∈ d.observations, d.subjectCells.getD o.subject 0 = o.levels.getD b 0) ∧
      ∃ table, anova t settings = .ok table ∧
        table.results.map (·.source) = Source.all d.factorCount ∧
        (∀ r ∈ table.results, r.kind = d.kindOf r.source) ∧
        ∀ r ∈ table.results, r.kind = .mixed → ∃ D,
          d.contrastScores (r.source.intersection d.withinMask) = .ok D ∧
          D.columns.rows = d.subjectCount ∧ (D.columns.cols = 1 → ∃ o,
            OneWay.ofGroups? (d.groupsOf (D.columns.get · 0)) = some o ∧
            r.test.f = o.f ∧ r.test.p = o.p ∧ r.test.dfNum = o.dfBetween ∧
            r.test.dfDen = o.dfWithin ∧
            ((∀ g ∈ d.groupsOf (D.columns.get · 0), ∀ x ∈ g, ∀ y ∈ g, x = y) →
              r.test.f = 0 ∧ r.test.p = some 1 ∧ o.f = 0 ∧ o.p = some 1)) := by
  have hd := accepted_of_ofTable ht h
  refine ⟨fun o ho => hd.getD_subjectCells_oneFactor hone ho, _, anova_eq_ok ht h,
    map_source_results settings _, kind_of_mem_results settings, fun r hr hkind => ?_⟩
  obtain ⟨s, hs, rfl⟩ := List.mem_map.mp hr
  have hkind : d.kindOf s = .mixed := (kind_resultOf settings s).symm.trans hkind
  rw [source_resultOf]
  refine ⟨_, hd.contrastScores_eq_ok (hd.kindOf_intersection hkind), hd.rows_contrastColumns _,
    fun hcols => ?_⟩
  obtain ⟨o, ho, hf, hp, hnum, hden⟩ :=
    hd.exists_ofGroups?_oneContrast hs hkind hone hcols hm hrao hk hn
  refine ⟨o, ho, hf, hp, hnum, hden, fun hsame => ?_⟩
  obtain ⟨hzero, hp'⟩ := OneWay.f_eq_zero_of_forall_eq (hd.ne_nil_of_mem_groupsOf _) ho hsame
  exact ⟨hf.trans hzero, hp.trans hp', hzero, hp'⟩

/-! ## The differences of two groups -/

theorem div_sqrt_two_mul_div_sqrt_two (x y : ℝ) : x / √2 * (y / √2) = x * y / 2 := by
  rw [div_mul_div_comm, Real.mul_self_sqrt two_pos.le]

theorem ssBetween_crossedGroups :
    OneWay.ssBetween [[2 / √2, 4 / √2], [1 / √2, 8 / √2]] = 9 / 8 := by
  simp only [OneWay.ssBetween, OneWay.correction, total_eq_sum, List.map_cons, List.map_nil,
    List.flatten_cons, List.flatten_nil, List.cons_append, List.nil_append, List.append_nil,
    List.sum_cons, List.sum_nil, List.length_cons, List.length_nil, add_zero, ← add_div,
    div_sqrt_two_mul_div_sqrt_two]
  norm_num

theorem ssWithin_crossedGroups :
    OneWay.ssWithin [[2 / √2, 4 / √2], [1 / √2, 8 / √2]] = 53 / 4 := by
  rw [OneWay.ssWithin, ssBetween_crossedGroups]
  simp only [OneWay.ssTotal, OneWay.correction, total_eq_sum, List.map_cons, List.map_nil,
    List.flatten_cons, List.flatten_nil, List.cons_append, List.nil_append, List.append_nil,
    List.sum_cons, List.sum_nil, List.length_cons, List.length_nil, add_zero, ← add_div,
    div_sqrt_two_mul_div_sqrt_two]
  norm_num

/-- The differences of the two groups, compared by both analyses. -/
theorem mixed_crossedGroups : crossedGroups.Built ∧ ofTable crossedGroups {} = .ok crossedDesign ∧
    crossedDesign.betweenFactors = [0] ∧ crossedDesign.Balanced 2 ∧
    ∃ table, anova crossedGroups {} = .ok table ∧ ∃ r ∈ table.results, r.kind = .mixed ∧
      ∃ o, OneWay.ofGroups? [[2 / √2, 4 / √2], [1 / √2, 8 / √2]] = some o ∧
        r.test.f = o.f ∧ r.test.p = o.p ∧ o.f = 9 / 53 := by
  have hone : crossedDesign.betweenFactors = [0] := by decide
  have hrao : ({} : Settings).lambdaTest = .rao := rfl
  obtain ⟨-, table, htable, -, -, hmixed⟩ := anova_mixed_eq_ofGroups built_crossedGroups hrao
    ofTable_crossedDesign hone (by decide) balanced_crossedGroups (by decide)
  have hmem : crossedDesign.resultOf {} (.span [0, 1]) ∈ table.results :=
    resultOf_mem_results built_crossedGroups ofTable_crossedDesign htable (by decide)
  have hkind : crossedDesign.kindOf (.span [0, 1]) = .mixed := by decide
  have hrkind := (kind_resultOf {} (.span [0, 1])).trans hkind
  obtain ⟨D, hD, -, hequal⟩ := hmixed _ hmem hrkind
  have hsource : (Source.span [0, 1]).intersection crossedDesign.withinMask = .span [1] := by decide
  have hd := accepted_crossedDesign
  rw [source_resultOf, hsource, hd.contrastScores_eq_ok (by decide)] at hD
  obtain rfl := Except.ok.inj hD
  obtain ⟨o, ho, hf, hp, -⟩ := hequal rfl
  have hgroups : crossedDesign.groupsOf ((crossedDesign.scoresOf (.span [1])).columns.get · 0) =
      [[2 / √2, 4 / √2], [1 / √2, 8 / √2]] := by
    have hcells : ∀ v : ℕ → ℝ, crossedDesign.groupsOf v = [[v 0, v 1], [v 2, v 3]] := fun _ => rfl
    rw [hcells]
    simp only [scoresOf, get_contrastColumns_crossedDesign, Nat.reduceLT, List.getD_cons_zero,
      List.getD_cons_succ]
  rw [hgroups] at ho
  refine ⟨built_crossedGroups, ofTable_crossedDesign, hone, balanced_crossedGroups, table, htable,
    _, hmem, hrkind, o, ho, hf, hp, ?_⟩
  have hne : ∀ g ∈ [[2 / √2, 4 / √2], [1 / √2, 8 / √2]], g ≠ [] := by simp
  obtain ⟨o', ho', hnum, hden, hstatistic, -⟩ := OneWay.exists_ofGroups? hne (by simp) (by simp)
  obtain rfl := Option.some.inj (ho.symm.trans ho')
  rw [hstatistic, ssWithin_crossedGroups, ssBetween_crossedGroups, hnum, hden]
  norm_num

end Design

end SplitPlot
