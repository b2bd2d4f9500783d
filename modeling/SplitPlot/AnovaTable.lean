import SplitPlot.Evaluation
import SplitPlot.Significance
import SplitPlot.Summary

/-!
# The table of an analysis

The decomposition of a design: one result for each of its sources, in ascending order of the
sources, with the factors they are made of.  A result is found by its source or by its label.
Labels are made from the names of the factors, which need not be distinct; the first result with
a label is the one that is found.
-/

namespace SplitPlot

/-- The result for one source. -/
structure SourceResult (K : Type) where
  /-- The names of the factors of the source, joined. -/
  label : String
  /-- The source. -/
  source : Source
  /-- The kind of the source. -/
  kind : Source.Kind
  /-- The test of the source. -/
  test : Significance K
  /-- The error matrices, for a source that is analysed on contrast scores. -/
  matrices : Option (ErrorMatrices K)
  /-- The pure effect. -/
  effect : Effect K
  /-- The descriptions of the cells, unless they are switched off. -/
  cells : List (CellSummary K)

/-- The results for all sources of a design. -/
structure AnovaTable (K : Type) where
  /-- The factors of the design. -/
  factors : List Factor
  /-- The number of subjects. -/
  subjectCount : Nat
  /-- The results, in ascending order of the sources. -/
  results : List (SourceResult K)

variable {K : Type} [Scalar K]

/-- Whether the probability of the statistic lies below the given level. -/
def SourceResult.isSignificant (r : SourceResult K) (alpha : K) : Bool :=
  r.test.p.any fun p => p < alpha

namespace AnovaTable

omit [Scalar K]

/-- The number of results. -/
def size (t : AnovaTable K) : Nat := t.results.length

/-- Whether there are no results. -/
def isEmpty (t : AnovaTable K) : Bool := t.results.isEmpty

/-- The first result with the given label. -/
def get? (t : AnovaTable K) (label : String) : Option (SourceResult K) :=
  t.results.find? fun r => r.label == label

/-- The result for a source.  The results are in ascending order of their sources. -/
def bySource? (t : AnovaTable K) (s : Source) : Option (SourceResult K) :=
  searchAscending (fun r => r.source.compare s) t.results

end AnovaTable

end SplitPlot
