import SplitPlot.Design

/-!
# Descriptions of cells

For every source the cells formed by its factors can be described: the mean of the observations
in each, the standard error of that mean, and how many they are.  The description works on the
observations themselves, so a subject counts once for each combination of the remaining factors
in which it was observed.

Only cells that occur are listed, in ascending order of their levels.  In an accepted design
every combination of levels occurs.
-/

namespace SplitPlot

/-- The description of one cell. -/
structure CellSummary (K : Type) where
  /-- The level of each factor of the source. -/
  levels : List Level
  /-- The mean of the observations. -/
  mean : K
  /-- The standard error of the mean, or zero for a single observation. -/
  stdErr : K
  /-- The number of observations. -/
  n : Nat
  deriving DecidableEq

variable {K : Type} [Scalar K]

/-- The standard error of a mean: the root of the unbiased variance by the number of values. -/
def standardError (values : List K) : K :=
  let n := values.length
  if n ≤ 1 then 0
  else
    let m := mean values
    let variance := total (values.map fun v => Scalar.square (v - m)) / ((n - 1 : Nat) : K)
    Scalar.sqrt (variance / (n : K))

namespace Design

/-- The description of the cell at the given levels of the listed factors. -/
def summarizeCell (d : Design K) (factors index : List Nat) : CellSummary K :=
  let values := (d.observations.filter fun o => o.levelsAt factors == index).map (·.value)
  { levels := (index.zip factors).map fun e => (d.factor e.2).levels.getD e.1 default
    mean := mean values
    stdErr := standardError values
    n := values.length }

/-- The descriptions of the cells of a source, in ascending order of their levels. -/
def summarize (d : Design K) (s : Source) : List (CellSummary K) :=
  (ascending (d.observations.map (·.levelsAt s.factors))).map (d.summarizeCell s.factors)

end Design

end SplitPlot
