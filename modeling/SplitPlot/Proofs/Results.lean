import SplitPlot.Proofs.Run
import SplitPlot.Proofs.Significance

/-!
# The result of a source

The result of a source is the test of what its evaluation yields.  For each of the three kinds the
test is stated here on the data of the design: the diagonal entry of the hypothesis matrix and the
error of the subject means (`test_between`), or the error matrices of two models (`test_within`,
`test_mixed`).
-/

namespace SplitPlot

namespace Design

variable {K : Type} [Scalar K] (d : Design K)

/-- The degrees of freedom of a source. -/
def sourceDf (s : Source) : K := Significance.numeratorDf (s.factors.map d.levelCount)

/-- The error matrices of a source within subjects. -/
def withinMatrices (s : Source) : ErrorMatrices K :=
  ⟨d.fullError s, d.withinRestrictedError s, Mat.isSquare_crossProduct _,
    Mat.isSquare_crossProduct _⟩

/-- The error matrices of a source with factors of both kinds. -/
def mixedMatrices (s : Source) : ErrorMatrices K :=
  ⟨d.fullError s, d.mixedRestrictedError s, Mat.isSquare_crossProduct _,
    Mat.isSquare_add (Mat.isSquare_crossProduct _) _⟩

variable {d} (settings : Settings)

theorem source_resultOf (s : Source) : (d.resultOf settings s).source = s := source_effect_outcome s

theorem kind_resultOf (s : Source) : (d.resultOf settings s).kind = d.kindOf s := kind_outcome s

/-- The results stand under their sources. -/
theorem map_source_results (l : List Source) :
    (l.map (d.resultOf settings)).map (·.source) = l := by
  rw [List.map_map]
  exact (List.map_congr_left fun s _ => source_resultOf settings s).trans (List.map_id _)

theorem kind_of_mem_results {l : List Source} : ∀ r ∈ l.map (d.resultOf settings),
    r.kind = d.kindOf r.source := by
  intro r hr
  obtain ⟨s, -, rfl⟩ := List.mem_map.mp hr
  rw [kind_resultOf, source_resultOf]

variable {s : Source}

/-- A table of results has the result of every source. -/
theorem resultOf_mem_results {t : ObservationTable K} (ht : t.Built) {settings : Settings}
    (h : ofTable t settings = .ok d) {table : AnovaTable K} (htable : anova t settings = .ok table)
    (hs : s ∈ Source.all d.factorCount) : d.resultOf settings s ∈ table.results := by
  rw [anova_eq_ok ht h] at htable
  obtain rfl := Except.ok.inj htable
  exact List.mem_map_of_mem hs

theorem test_between (h : d.kindOf s = .between) : (d.resultOf settings s).test =
    .univariate ((d.hypothesis d.meanStatistics s).get 0 0) d.meanErrorSs (d.sourceDf s)
      (Significance.betweenDenominatorDf d.subjectCount d.betweenCellCount) := by
  rw [resultOf, outcome_eq_between h]
  rfl

theorem matrices_between (h : d.kindOf s = .between) : (d.resultOf settings s).matrices = none := by
  rw [resultOf, outcome_eq_between h]
  rfl

theorem effect_between (h : d.kindOf s = .between) :
    (d.resultOf settings s).effect = ⟨s, d.pureEffect d.meanStatistics s⟩ := by
  rw [resultOf, outcome_eq_between h]
  rfl

theorem matrices_within (h : d.kindOf s = .within) :
    (d.resultOf settings s).matrices = some (d.withinMatrices s) := by
  rw [resultOf, outcome_eq_within h]
  rfl

theorem effect_within (h : d.kindOf s = .within) :
    (d.resultOf settings s).effect = ⟨s, d.grandEffect (d.scoresWithin s)⟩ := by
  rw [resultOf, outcome_eq_within h]
  rfl

theorem test_within (h : d.kindOf s = .within) : (d.resultOf settings s).test =
    .withinSubjects (d.withinMatrices s) (d.sourceDf s)
      (Significance.withinDenominatorDf d.subjectCount d.betweenCellCount (d.sourceDf s)) := by
  rw [resultOf, outcome_eq_within h]
  rfl

theorem matrices_mixed (h : d.kindOf s = .mixed) :
    (d.resultOf settings s).matrices = some (d.mixedMatrices s) := by
  rw [resultOf, outcome_eq_mixed h]
  rfl

theorem effect_mixed (h : d.kindOf s = .mixed) :
    (d.resultOf settings s).effect = ⟨s, d.pureEffect (d.scoresWithin s).cells s⟩ := by
  rw [resultOf, outcome_eq_mixed h]
  rfl

theorem test_mixed (h : d.kindOf s = .mixed) : (d.resultOf settings s).test =
    .multivariate (d.mixedMatrices s) d.betweenCellCount d.subjectCount (d.sourceDf s)
      settings.lambdaTest := by
  rw [resultOf, outcome_eq_mixed h]
  rfl

/-- Every test counts the degrees of freedom of its source. -/
theorem dfNum_resultOf (s : Source) : (d.resultOf settings s).test.dfNum = d.sourceDf s := by
  cases hkind : d.kindOf s with
  | between => rw [test_between settings hkind, Significance.dfNum_univariate]
  | within => rw [test_within settings hkind, Significance.dfNum_withinSubjects]
  | mixed => rw [test_mixed settings hkind, Significance.dfNum_multivariate]

/-- A source has no probability exactly if the evaluation of its tail is given up. -/
theorem p_resultOf_eq_none_iff (s : Source) :
    (d.resultOf settings s).test.p = none ↔ (d.resultOf settings s).test.TailGivenUp := by
  cases hkind : d.kindOf s with
  | between =>
    rw [test_between settings hkind]
    exact Significance.p_univariate_eq_none_iff
  | within =>
    rw [test_within settings hkind]
    exact Significance.p_univariate_eq_none_iff
  | mixed =>
    rw [test_mixed settings hkind]
    exact Significance.p_multivariate_eq_none_iff

/-- In exact arithmetic every source has a probability. -/
theorem exists_p_resultOf (d : Design ℝ) (settings : Settings) (s : Source) :
    ∃ p, (d.resultOf settings s).test.p = some p := by
  cases hkind : d.kindOf s with
  | between =>
    rw [test_between settings hkind]
    exact Significance.exists_p_univariate _ _ _ _
  | within =>
    rw [test_within settings hkind]
    exact Significance.exists_p_univariate _ _ _ _
  | mixed =>
    rw [test_mixed settings hkind]
    exact Significance.exists_p_multivariate _ _ _ _ _

end Design

end SplitPlot
