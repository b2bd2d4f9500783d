import SplitPlot.AnovaTable
import SplitPlot.Design.Classification
import SplitPlot.Source.Enumeration

/-!
# Running an analysis

An `Analysis` is a design together with everything that its sources share: the means of the
subjects, the statistics of their cells, the contrast scores of every source within subjects, and
the memo of the effects found so far.

`run` works through the dependency waves.  All sources of a wave are evaluated against the memo
as it was before the wave, and then their effects are stored; so the outcome does not depend on
the order of the sources inside a wave, nor on their being evaluated one after another at all.
-/

namespace SplitPlot

/-- A design with what its sources share, and the effects found so far. -/
structure Analysis (K : Type) where
  /-- The design. -/
  design : Design K
  /-- The settings. -/
  settings : Settings
  /-- The mean of each subject, as one column. -/
  means : Mat K
  /-- The statistics of the cells of these means. -/
  meanCells : CellStatistics K
  /-- The contrast scores of every source within subjects. -/
  scores : List (ContrastScores K)
  /-- The effects found so far. -/
  memo : EffectMemo K

namespace Analysis

variable {K : Type} [Scalar K]

/-! ## Preparation -/

/-- The sources of a design whose factors all vary within subjects. -/
def withinSources (d : Design K) : Except Fault (List Source) := do
  return (← Source.enumerate d.factorCount).filter fun s => d.kindOf s == .within

/-- The analysis of a design before any source has been evaluated. -/
def ofDesign (d : Design K) (settings : Settings) : Except Failure (Analysis K) := do
  let means := subjectMeans d.scores
  let cells ← Failure.ofFault (CellStatistics.compute means d.subjectCells d.betweenShape)
  let sources ← Failure.ofFault (withinSources d)
  let scores ← sources.mapM d.contrastScores
  return ⟨d, settings, means, cells, scores, ∅⟩

/-- The analysis of a table before any source has been evaluated. -/
def ofTable (t : ObservationTable K) (settings : Settings) : Except Failure (Analysis K) := do
  ofDesign (← Failure.ofDesign (Design.ofTable t settings)) settings

/-- The contrast scores of a source within subjects. -/
def scores? (a : Analysis K) (s : Source) : Option (ContrastScores K) :=
  a.scores.find? fun d => d.source == s

/-- The contrast scores of the factors of a source within subjects, which have to be prepared. -/
def scoresFor (a : Analysis K) (s : Source) : Except Fault (ContrastScores K) :=
  let inside := s.intersection a.design.withinMask
  match a.scores? inside with
  | some d => .ok d
  | none => .error (.missingScores inside)

/-! ## One source -/

/-- Evaluates a source against the effects found so far. -/
def evaluate (a : Analysis K) (s : Source) : Except Fault (Outcome K) :=
  match a.design.kindOf s with
  | .between => a.design.evaluateBetween a.means a.meanCells s a.memo
  | .within => do return a.design.evaluateWithin (← a.scoresFor s) s
  | .mixed => do a.design.evaluateMixed (← a.scoresFor s) s a.memo

/-- Tests an evaluated source. -/
def significance (a : Analysis K) (o : Outcome K) : Significance K :=
  let n := a.design.subjectCount
  let k := a.design.betweenCellCount
  let dfNum : K := Significance.numeratorDf (o.source.factors.map a.design.levelCount)
  match o.sums with
  | .scalar ss errorSs =>
    .univariate ss errorSs dfNum (Significance.betweenDenominatorDf n k)
  | .matrix m =>
    if o.kind = .within then
      .withinSubjects m dfNum (Significance.withinDenominatorDf n k dfNum)
    else .multivariate m k n dfNum a.settings.lambdaTest

/-- The result for an evaluated source. -/
def result (a : Analysis K) (o : Outcome K) : SourceResult K where
  label := o.source.label a.design.factorNames
  source := o.effect.source
  kind := o.kind
  test := a.significance o
  matrices :=
    match o.sums with
    | .scalar .. => none
    | .matrix m => some m
  effect := o.effect
  cells := if a.settings.cellSummaries then a.design.summarize o.source else []

/-! ## All sources -/

/-- Evaluates the sources of one wave, each against the effects found before the wave. -/
def evaluateWave (a : Analysis K) (wave : List Source) : Except Fault (List (Outcome K)) :=
  wave.mapM a.evaluate

/-- Stores the effect of an outcome, whose source must not have been stored yet. -/
def store (a : Analysis K) (o : Outcome K) : Except Fault (Analysis K) :=
  let written := a.memo.insert o.effect
  written.1.map fun _ => { a with memo := written.2 }

/-- Works through one wave: the results of its sources, and the analysis with their effects. -/
def runWave (a : Analysis K) (wave : List Source) :
    Except Fault (Analysis K × List (SourceResult K)) := do
  let outcomes ← a.evaluateWave wave
  return (← outcomes.foldlM store a, outcomes.map a.result)

/-- Works through the waves one after another and appends their results to those given. -/
def runWaves (a : Analysis K) (waves : List (List Source)) (results : List (SourceResult K)) :
    Except Fault (List (SourceResult K)) :=
  match waves with
  | [] => .ok results
  | wave :: rest => do
    let (next, found) ← a.runWave wave
    next.runWaves rest (results ++ found)

/-- Evaluates and tests every source of the design. -/
def run (a : Analysis K) : Except Fault (AnovaTable K) := do
  let waves ← Source.dependencyWaves a.design.factorCount
  let results ← a.runWaves waves []
  return {
    factors := a.design.factors
    subjectCount := a.design.subjectCount
    results := results.mergeSort fun r s => r.source.bits.toNat ≤ s.source.bits.toNat }

end Analysis

/-- The analysis of variance of a table of observations. -/
def anova {K : Type} [Scalar K] (t : ObservationTable K) (settings : Settings) :
    Except Failure (AnovaTable K) := do
  Failure.ofFault (← Analysis.ofTable t settings).run

end SplitPlot
