import SplitPlot.Grid
import SplitPlot.Mat

/-!
# Statistics of cells between subjects

Every source is analysed on a matrix of scores with one row per subject: the means of the
subjects where only factors between subjects take part, contrast scores otherwise.  The rows fall
into the cells between subjects, and `CellStatistics` holds what the models need of them: the
mean of each variable in each cell, the size of each cell, and the means over all subjects.

The full model predicts a row by the means of its cell; `residuals` are what it leaves.  A cell
without rows has mean zero, which predicts nothing.

The means are kept twice.  `flatMeans` has one row per cell, in the order of the cell numbers;
`means` spreads the same rows over one axis per factor and a last axis for the variables, the
form in which means over factors are taken.
-/

namespace SplitPlot

/-- The means and sizes of the cells into which the rows of a score matrix fall. -/
structure CellStatistics (K : Type) where
  /-- The means, with one axis per factor and a last one for the variables. -/
  means : Grid K
  /-- The means, with one row per cell. -/
  flatMeans : Mat K
  /-- The number of rows in each cell, with one axis per factor. -/
  counts : Grid K
  /-- The harmonic mean of the numbers of rows of all cells. -/
  harmonicN : K
  /-- The mean of each variable over all rows. -/
  grandMeans : List K

namespace CellStatistics

variable {K : Type} [Scalar K]

/-- The rows that stand in a cell. -/
def members (cells : List Nat) (cell : Nat) : List Nat :=
  (cells.zipIdx.filter fun e => e.1 == cell).map (·.2)

/-- The means of a cell: the sum over its rows by their number, or zero if it has none. -/
def cellMean (values : Mat K) (cells : List Nat) (cell var : Nat) : K :=
  let rows := members cells cell
  if rows.isEmpty then 0 else mean (rows.map fun r => values.get r var)

/-- The statistics of a score matrix whose rows stand in the given cells. -/
def ofRows (values : Mat K) (cells shape : List Nat) : CellStatistics K :=
  let flat : Mat K := .ofFn (cellCount shape) values.cols (cellMean values cells)
  let counts : Grid K := .ofFn shape fun index =>
    ((members cells (flatIndex index shape)).length : K)
  { means := .ofFn (shape ++ [values.cols]) fun index =>
      flat.get (flatIndex index.dropLast shape) (index.getLastD 0)
    flatMeans := flat
    counts := counts
    harmonicN := harmonicMean counts.toList
    grandMeans := (List.range values.cols).map fun j =>
      total (values.col j) / ((max values.rows 1 : Nat) : K) }

/-- The statistics of a score matrix, which has to have one cell assigned to each row. -/
def compute (values : Mat K) (cells shape : List Nat) : Except Fault (CellStatistics K) :=
  if values.rows = cells.length then .ok (ofRows values cells shape) else .error .cellPerSubject

/-- The number of variables. -/
def variableCount (c : CellStatistics K) : Nat := c.grandMeans.length

/-- The number of axes of the cells. -/
def betweenAxes (c : CellStatistics K) : Nat := c.counts.axes

/-- Each row less the means of its cell. -/
def residuals (c : CellStatistics K) (values : Mat K) (cells : List Nat) : Mat K :=
  .ofFn values.rows values.cols fun i j =>
    match cells[i]? with
    | some cell => values.get i j - c.flatMeans.get cell j
    | none => values.get i j

@[simp] theorem rows_residuals (c : CellStatistics K) (values : Mat K) (cells : List Nat) :
    (c.residuals values cells).rows = values.rows := rfl

@[simp] theorem cols_residuals (c : CellStatistics K) (values : Mat K) (cells : List Nat) :
    (c.residuals values cells).cols = values.cols := rfl

end CellStatistics

/-- The mean of each subject over all cells of the factors within subjects, as one column.  The
first axis of the scores is that of the subjects. -/
def subjectMeans {K : Type} [Scalar K] (scores : Grid K) : Mat K :=
  .ofFn (scores.extent 0) 1 fun s _ =>
    mean ((multiIndices scores.shape.tail).map fun index => scores.get (s :: index))

end SplitPlot
