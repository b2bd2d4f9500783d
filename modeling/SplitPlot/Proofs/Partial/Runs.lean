import Mathlib
import SplitPlot.Proofs.Partial.Models
import SplitPlot.Proofs.Partial.Tests
import SplitPlot.Proofs.Relabelling.Runs
import SplitPlot.Proofs.Results

/-!
# Runs in which every number is defined

A table with defined values is analysed with numbers that may be undefined, and everything that the
analysis prepares and reports is defined: it is what the analysis of real numbers gives
(`anova_checked`).  What that excludes is known exactly.  An operation on defined numbers has no
value if and only if it is a quotient by zero (`Checked.div_eq_undefined_iff`), a logarithm of a
number that is not positive (`Checked.log_eq_undefined_iff`) or a power of such a number
(`Checked.pow_eq_undefined_iff`).  So none of these is taken on the way.

The description of a cell is not part of a test.  It divides by the number of observations in the
cell, which occurs, and by one less where there are two of them.
-/

namespace SplitPlot

section Map

variable {K L : Type}

/-- The description with each number taken to another one. -/
def CellSummary.map (f : K → L) (s : CellSummary K) : CellSummary L :=
  ⟨s.levels, f s.mean, f s.stdErr, s.n⟩

/-- The effect with each number taken to another one. -/
def Effect.map (f : K → L) (e : Effect K) : Effect L := ⟨e.source, e.values.map f⟩

/-- The memo with each number taken to another one. -/
def EffectMemo.map (f : K → L) (m : EffectMemo K) : EffectMemo L := ⟨m.effects.map (Effect.map f)⟩

/-- The sums of squares with each number taken to another one. -/
def SumOfSquares.map (f : K → L) : SumOfSquares K → SumOfSquares L
  | .scalar ss errorSs => .scalar (f ss) (f errorSs)
  | .matrix m => .matrix (m.map f)

/-- The outcome with each number taken to another one. -/
def Outcome.map (f : K → L) (o : Outcome K) : Outcome L :=
  ⟨o.source, o.kind, o.effect.map f, o.sums.map f, o.variableCount⟩

/-- The result with each number taken to another one. -/
def SourceResult.map (f : K → L) (r : SourceResult K) : SourceResult L where
  label := r.label
  source := r.source
  kind := r.kind
  test := r.test.map f
  matrices := r.matrices.map (ErrorMatrices.map f)
  effect := r.effect.map f
  cells := r.cells.map (CellSummary.map f)

/-- The results of all sources with each number taken to another one. -/
def AnovaTable.map (f : K → L) (t : AnovaTable K) : AnovaTable L :=
  ⟨t.factors, t.subjectCount, t.results.map (SourceResult.map f)⟩

/-- The analysis with each number taken to another one. -/
def Analysis.map (f : K → L) (a : Analysis K) : Analysis L where
  design := a.design.map f
  settings := a.settings
  means := a.means.map f
  meanCells := a.meanCells.map f
  scores := a.scores.map (ContrastScores.map f)
  memo := a.memo.map f

end Map

variable {c : Comparison}

open Checked

/-! ## Descriptions of cells -/

theorem standardError_map_of (values : List ℝ) :
    standardError (values.map (of c)) = of c (standardError values) := by
  rw [standardError, standardError, List.length_map]
  by_cases hfew : values.length ≤ 1
  · rw [if_pos hfew, if_pos hfew, zero_eq]
  · have hne : values ≠ [] := by
      rintro rfl
      exact hfew (Nat.zero_le 1)
    have hcount : ((values.length : ℕ) : ℝ) ≠ 0 := Nat.cast_ne_zero.mpr (by omega)
    have hfreedom : ((values.length - 1 : ℕ) : ℝ) ≠ 0 := Nat.cast_ne_zero.mpr (by omega)
    have hsquares : (values.map (of c)).map (fun v => Scalar.square (v - of c (mean values))) =
        (values.map fun v => Scalar.square (v - mean values)).map (of c) := by
      rw [List.map_map, List.map_map]
      rfl
    rw [if_neg hfew, if_neg hfew]
    simp only [mean_map_of hne, hsquares, total_map_of, natCast_eq]
    rw [of_div hfreedom, of_div hcount, of_sqrt]

namespace Design

variable (d : Design ℝ)

/-- A cell that is described has been observed. -/
theorem summarize_map_of (s : Source) :
    (d.map (of c)).summarize s = (d.summarize s).map (CellSummary.map (of c)) := by
  have hlevels : (d.map (of c)).observations.map (·.levelsAt s.factors) =
      d.observations.map (·.levelsAt s.factors) := List.map_map
  rw [summarize, summarize, hlevels, List.map_map]
  refine List.map_congr_left fun index hindex => ?_
  obtain ⟨o, ho, hlevel⟩ := List.mem_map.mp (mem_ascending.mp hindex)
  have hvalues :
      (((d.map (of c)).observations.filter fun o => o.levelsAt s.factors == index).map
        (·.value)) =
      ((d.observations.filter fun o => o.levelsAt s.factors == index).map
        (·.value)).map (of c) := by
    show (((d.observations.map (CodedObservation.map (of c))).filter _).map _) = _
    rw [List.filter_map, List.map_map, List.map_map]
    rfl
  have hne : (d.observations.filter fun o => o.levelsAt s.factors == index).map (·.value) ≠ [] := by
    rw [Ne, List.map_eq_nil_iff]
    exact List.ne_nil_of_mem (List.mem_filter.mpr ⟨ho, beq_iff_eq.mpr hlevel⟩)
  simp only [summarizeCell, hvalues, Function.comp_apply, CellSummary.map, mean_map_of hne,
    standardError_map_of, List.length_map]
  rfl

end Design

/-! ## The test of an outcome -/

namespace Analysis

variable (a : Analysis ℝ) (o : Outcome ℝ)

theorem significance_map_of :
    (a.map (of c)).significance (o.map (of c)) = (a.significance o).map (of c) := by
  obtain ⟨source, kind, effect, sums, count⟩ := o
  cases sums with
  | scalar ss errorSs =>
    show Significance.univariate _ _ (Significance.numeratorDf _) _ = _
    rw [Significance.numeratorDf_eq]
    exact Significance.univariate_of _ _ _ _
  | matrix m =>
    show (if kind = .within then Significance.withinSubjects _ (Significance.numeratorDf _)
      (Significance.withinDenominatorDf _ _ (Significance.numeratorDf _))
        else Significance.multivariate _ _ _ (Significance.numeratorDf _) _) = _
    rw [Significance.numeratorDf_eq, significance]
    dsimp only
    split
    · exact Significance.withinSubjects_map_of _ _ m
    · exact Significance.multivariate_map_of _ _ m _ _

theorem result_map_of : (a.map (of c)).result (o.map (of c)) = (a.result o).map (of c) := by
  have hcells : (if (a.map (of c)).settings.cellSummaries then
      (a.map (of c)).design.summarize (o.map (of c)).source else []) =
        (if a.settings.cellSummaries then a.design.summarize o.source else []).map
          (CellSummary.map (of c)) := by
    show (if a.settings.cellSummaries then (a.design.map (of c)).summarize o.source else []) = _
    rw [a.design.summarize_map_of]
    split <;> rfl
  rw [result, result, significance_map_of, hcells]
  obtain ⟨source, kind, effect, sums, count⟩ := o
  cases sums <;> rfl

end Analysis

/-! ## The sources of an accepted design -/

namespace Design

variable {d : Design ℝ} (hd : d.Accepted) (c)

include hd

theorem Accepted.outcome_map_of (s : Source) :
    (d.map (of c)).outcome s = (d.outcome s).map (of c) := by
  have hkind : (d.map (of c)).kindOf s = d.kindOf s := rfl
  cases h : d.kindOf s with
  | between =>
    have hmatrix := hd.hypothesis_map_of c (subjectMeans d.scores) s
    have heffect := hd.pureEffect_map_of c (subjectMeans d.scores) s
    rw [outcome_eq_between (hkind.trans h), outcome_eq_between h, hd.meanErrorSs_map_of,
      hd.meanStatistics_map_of]
    rw [← meanStatistics] at hmatrix heffect
    rw [hmatrix, heffect, Mat.get_map_of]
    rfl
  | within =>
    have hfull := hd.fullError_map_of c s
    have hrestricted := hd.withinRestrictedError_map_of c s
    rw [fullError, hd.scoresWithin_map_of] at hfull
    rw [withinRestrictedError, hd.scoresWithin_map_of] at hrestricted
    rw [outcome_eq_within (hkind.trans h), outcome_eq_within h, hd.scoresWithin_map_of,
      evaluateWithin, evaluateWithin]
    simp only [grandEffect_map_of, hfull, hrestricted]
    rfl
  | mixed =>
    have heffect := hd.pureEffect_map_of c (d.contrastColumns (s.intersection d.withinMask)) s
    rw [outcome_eq_mixed (hkind.trans h), outcome_eq_mixed h]
    simp only [hd.fullError_map_of, hd.mixedRestrictedError_map_of, hd.scoresWithin_map_of]
    show Outcome.mk s _ ⟨s, (d.map (of c)).pureEffect ((d.statistics _).map (of c)) s⟩ _ _ = _
    rw [heffect]
    rfl

theorem Accepted.prepared_map_of (settings : Settings) :
    (d.map (of c)).prepared settings ∅ = (d.prepared settings ∅).map (of c) := by
  have hscores : (d.map (of c)).sourcesWithin.map (d.map (of c)).scoresOf =
      (d.sourcesWithin.map d.scoresOf).map (ContrastScores.map (of c)) := by
    rw [List.map_map]
    exact List.map_congr_left fun s _ => hd.scoresOf_map_of c s
  rw [prepared, prepared, hd.subjectMeans_map_of, hd.meanStatistics_map_of, hscores]
  rfl

theorem Accepted.resultOf_map_of (settings : Settings) (s : Source) :
    (d.map (of c)).resultOf settings s = (d.resultOf settings s).map (of c) := by
  rw [resultOf, resultOf, hd.prepared_map_of, hd.outcome_map_of, Analysis.result_map_of]

omit hd

/-- The tail of a test is taken as it should be, whatever the source. -/
theorem takesTail_resultOf (d : Design ℝ) (settings : Settings) (s : Source) :
    (d.resultOf settings s).test.TakesTail := by
  cases h : d.kindOf s with
  | between =>
    rw [test_between settings h]
    exact Significance.takesTail_univariate _ _ _ _
  | within =>
    rw [test_within settings h]
    exact Significance.takesTail_univariate _ _ _ _
  | mixed =>
    rw [test_mixed settings h]
    exact Significance.takesTail_multivariate _ _ _ _ _

end Design

/-! ## Runs -/

/-- **An analysis divides by nothing that is zero.**  Let a table be a design.  Its analysis is
prepared and run, and one with numbers that may be undefined is prepared and run with the same
outcome, in which every number is defined: subject means, statistics of cells, contrast scores,
effects, error matrices, mean squares, statistics, probabilities and descriptions of cells.  So no
divisor is zero (`Checked.div_eq_undefined_iff`), and each logarithm and each power is taken of a
positive number (`Checked.log_eq_undefined_iff`, `Checked.pow_eq_undefined_iff`).  The whole numbers
that the number of a cell is divided by to find its position are not zero either.

Every test has a probability.  It is the tail of a distribution with positive degrees of freedom, of
a statistic that is not negative, and a test with a reason why it was not carried out takes none. -/
theorem anova_checked {t : ObservationTable ℝ} (ht : t.Built) {settings : Settings} {d : Design ℝ}
    (h : Design.ofTable t settings = .ok d) :
    ∃ a table, Analysis.ofTable t settings = .ok a ∧ a.run = .ok table ∧
      table.results.map (·.source) = Source.all d.factorCount ∧
      (∀ c : Comparison,
        Analysis.ofTable (t.map (Checked.of c)) settings = .ok (a.map (Checked.of c)) ∧
          (a.map (Checked.of c)).run = .ok (table.map (Checked.of c))) ∧
      (∀ (s : Source) (cell : ℕ), unflatten cell (d.averageOutside (d.withinAxes s)).shape.tail =
        .ok (unravel (d.averageOutside (d.withinAxes s)).shape.tail cell)) ∧
      ∀ r ∈ table.results,
        (∃ p, r.test.p = some p) ∧
        (r.test.degeneracy ≠ none → r.test.p = some 1) ∧
        (r.test.degeneracy = none → 0 < r.test.dfNum ∧ 0 < r.test.dfDen ∧ 0 ≤ r.test.f ∧
          (∀ l, r.test.wilksLambda = some l → 0 < l) ∧
          (r.test.chiSquare = none → r.test.p = fTail r.test.dfNum r.test.dfDen r.test.f) ∧
          ∀ x, r.test.chiSquare = some x →
            0 ≤ x ∧ r.test.p = some (chiSquareTail x r.test.dfNum)) := by
  have hd := Design.accepted_of_ofTable ht h
  refine ⟨d.prepared settings ∅, d.table settings, ?_, hd.run_eq_ok settings, ?_, fun c => ?_,
    hd.unflatten_eq_ok, fun r hr => ?_⟩
  · rw [Analysis.ofTable, h]
    exact hd.ofDesign_eq_ok settings
  · rw [Design.table, List.map_map]
    exact (List.map_congr_left fun s _ => Design.source_resultOf settings s).trans (List.map_id _)
  · have h' : Design.ofTable (t.map (of c)) settings = .ok (d.map (of c)) := by
      rw [Design.ofTable_map_of, h]
      rfl
    have hd' := Design.accepted_of_ofTable (ht.map_of c) h'
    have hprepared := hd.prepared_map_of c settings
    have hrun := hd'.run_eq_ok settings
    constructor
    · rw [Analysis.ofTable, h', ← hprepared]
      exact hd'.ofDesign_eq_ok settings
    · rw [← hprepared, hrun, AnovaTable.map, Design.table, List.map_map]
      refine congrArg
        (fun results => Except.ok (⟨d.factors, d.subjectCount, results⟩ : AnovaTable _)) ?_
      exact List.map_congr_left fun s _ => hd.resultOf_map_of c settings s
  · obtain ⟨s, -, rfl⟩ := List.mem_map.mp hr
    exact ⟨d.exists_p_resultOf settings s, d.takesTail_resultOf settings s⟩

/-- Two groups of unequal size, measured on three occasions, are analysed without a division by
zero. -/
theorem anova_checked_threeOccasions : threeOccasions.Built ∧
    ∃ a table, Analysis.ofTable threeOccasions {} = .ok a ∧ a.run = .ok table ∧
      table.results.length = 3 ∧ ∀ c : Comparison,
        Analysis.ofTable (threeOccasions.map (Checked.of c)) {} = .ok (a.map (Checked.of c)) ∧
          (a.map (Checked.of c)).run = .ok (table.map (Checked.of c)) := by
  obtain ⟨a, table, ha, hrun, hsources, hchecked, -, -⟩ :=
    anova_checked built_threeOccasions ofTable_threeOccasions
  refine ⟨built_threeOccasions, a, table, ha, hrun, ?_, hchecked⟩
  have hlength := congrArg List.length hsources
  rw [List.length_map] at hlength
  exact hlength

end SplitPlot
