import SplitPlot.ContrastScores
import SplitPlot.Effect
import SplitPlot.ErrorMatrices

/-!
# Evaluating a source

To evaluate a source is to find its pure effect and its sums of squares.  There are three cases.

* A source between subjects is evaluated on the means of the subjects.
* A source within subjects is evaluated on its contrast scores.  Its effect is the vector of their
  grand means, and the restricted model adds that vector back to the residuals.
* A source with factors of both kinds is evaluated on the contrast scores of its factors within
  subjects, with the cells between subjects formed by the others.

## Restricting the cell means

In the first and the third case the effect comes from the means of the cells between subjects.
They are averaged over the factors outside the source, without regard to the sizes of the cells;
the grand mean is then taken with the harmonic means of those sizes as weights, and subtracted,
and so are the effects of the sub-sources: the proper subsets with the same factors within
subjects and at least one factor between.  The hypothesis matrix sums the products of the effect
over all cells of the source, each weighted by the harmonic mean of the sizes of the cells that
were averaged and by their number.  Only the source that spans the whole design weights every
cell alike, by the harmonic mean of all sizes.
-/

namespace SplitPlot

variable {K : Type} [Scalar K]

/-! ## Outcomes -/

/-- The sums of squares of a source. -/
inductive SumOfSquares (K : Type) where
  /-- The sums of squares of the effect and of the error, for one variable. -/
  | scalar (ss errorSs : K)
  /-- The error matrices, for contrast scores. -/
  | matrix (matrices : ErrorMatrices K)

/-- What the evaluation of a source yields. -/
structure Outcome (K : Type) where
  /-- The source. -/
  source : Source
  /-- The kind of the source. -/
  kind : Source.Kind
  /-- The pure effect. -/
  effect : Effect K
  /-- The sums of squares. -/
  sums : SumOfSquares K
  /-- The number of variables. -/
  variableCount : Nat

/-! ## Restriction -/

namespace CellStatistics

/-- The axes of the cells that are not listed. -/
def otherAxes (c : CellStatistics K) (axes : List Nat) : List Nat :=
  (List.range c.betweenAxes).filter fun a => !axes.contains a

/-- The means of the cells over the levels of the listed axes. -/
def marginalMeans (c : CellStatistics K) (axes : List Nat) : Grid K :=
  c.means.meanKeep (c.otherAxes axes)

/-- The harmonic means of the sizes of the cells that share their levels of the listed axes. -/
def marginalCounts (c : CellStatistics K) (axes : List Nat) : Grid K :=
  c.counts.harmonicMeanKeep (c.otherAxes axes)

/-- The number of cells that share their levels of the listed axes. -/
def multiplicity (c : CellStatistics K) (axes : List Nat) : K :=
  product ((c.otherAxes axes).map fun a => (c.counts.extent a : K))

/-- The mean of the marginal means, weighted by the marginal counts, for each variable. -/
def weightedMean (c : CellStatistics K) (axes : List Nat) : Grid K :=
  let means := c.marginalMeans axes
  let counts := c.marginalCounts axes
  let sums := (Grid.ofFn means.shape fun index =>
    means.get index * counts.get index.dropLast).sumKeep (List.range c.betweenAxes)
  let n := counts.sum
  if 0 < n then Grid.ofFn sums.shape fun index => sums.get index / n else sums

/-- The marginal means less their weighted mean: the effect before that of sub-sources is taken
away. -/
def centredMeans (c : CellStatistics K) (axes : List Nat) : Grid K :=
  let means := c.marginalMeans axes
  let centre := c.weightedMean axes
  .ofFn means.shape fun index => means.get index - centre.getStretched index

/-- The weights of the cells of a source in its hypothesis matrix.  A source that spans the whole
design weights all cells alike. -/
def hypothesisWeights (c : CellStatistics K) (axes : List Nat) (spansAll : Bool) : Grid K :=
  let counts := c.marginalCounts axes
  .ofFn counts.shape fun index =>
    (if spansAll then c.harmonicN else counts.get index) * c.multiplicity axes

/-- The weighted sums of the products of an effect over all cells of its source. -/
def hypothesisMatrix (c : CellStatistics K) (effect weights : Grid K) : Mat K :=
  .ofFn c.variableCount c.variableCount fun i j =>
    total ((multiIndices weights.shape).map fun index =>
      effect.get (index ++ [i]) * effect.get (index ++ [j]) * weights.get index)

end CellStatistics

namespace Design

/-- The sub-sources whose effects are taken away from that of a source: its proper subsets with
the same factors within subjects and at least one factor between. -/
def subSources (d : Design K) (s : Source) : List Source :=
  s.properSubsets.filter fun t =>
    t.intersection d.withinMask == s.intersection d.withinMask &&
      !(t.difference d.withinMask).isEmpty

/-- Takes the effects of the sub-sources of a source away from a table, in ascending order. -/
def subtractEffects (d : Design K) (s : Source) (memo : EffectMemo K) (start : Grid K) :
    Except Fault (Grid K) :=
  (d.subSources s).foldlM (fun effect t => do effect.subStretched (← memo.require t).values) start

/-- The pure effect of a source between subjects or of both kinds, and its hypothesis matrix. -/
def restrict (d : Design K) (c : CellStatistics K) (s : Source) (memo : EffectMemo K) :
    Except Fault (Grid K × Mat K) := do
  let axes := d.betweenAxes s
  let effect ← d.subtractEffects s memo (c.centredMeans axes)
  return (effect, c.hypothesisMatrix effect (c.hypothesisWeights axes (s == d.fullSource)))

/-! ## The three kinds of source -/

/-- Evaluates a source between subjects on the means of the subjects. -/
def evaluateBetween (d : Design K) (means : Mat K) (c : CellStatistics K) (s : Source)
    (memo : EffectMemo K) : Except Fault (Outcome K) := do
  let (effect, hypothesis) ← d.restrict c s memo
  let residuals := c.residuals means d.subjectCells
  let errorSs := total (residuals.entries.toList.map fun r => r * r)
  return ⟨s, .between, ⟨s, effect⟩, .scalar (hypothesis.get 0 0) errorSs, 1⟩

/-- What the means of the cells leave of contrast scores. -/
def scoreResiduals (d : Design K) (scores : ContrastScores K) : Mat K :=
  scores.cells.residuals scores.columns d.subjectCells

/-- The grand means of contrast scores, as a table with an axis of length one per factor between
subjects. -/
def grandEffect (d : Design K) (scores : ContrastScores K) : Grid K :=
  .ofFn (d.betweenFactors.map (fun _ => 1) ++ [scores.size]) fun index =>
    scores.cells.grandMeans.getD (index.getLastD 0) 0

/-- Evaluates a source within subjects on its contrast scores. -/
def evaluateWithin (d : Design K) (scores : ContrastScores K) (s : Source) : Outcome K :=
  let residuals := d.scoreResiduals scores
  let restored := residuals.addRow scores.cells.grandMeans
  ⟨s, .within, ⟨s, d.grandEffect scores⟩,
    .matrix ⟨residuals.crossProduct, restored.crossProduct, rfl, rfl⟩, scores.size⟩

/-- Evaluates a source with factors of both kinds on the contrast scores of those within
subjects. -/
def evaluateMixed (d : Design K) (scores : ContrastScores K) (s : Source)
    (memo : EffectMemo K) : Except Fault (Outcome K) := do
  let full := (d.scoreResiduals scores).crossProduct
  let (effect, hypothesis) ← d.restrict scores.cells s memo
  return ⟨s, .mixed, ⟨s, effect⟩, .matrix ⟨full, full + hypothesis, rfl, rfl⟩, scores.size⟩

end Design

end SplitPlot
