import SplitPlot.Cells
import SplitPlot.Design
import SplitPlot.Failure
import SplitPlot.Polynomial

/-!
# Contrast scores

A source within subjects is analysed on contrast scores, the *D-variables*: for each subject one
number per combination of contrasts of the source's factors.  The other factors within subjects
are averaged out first.

## Weights

A combination takes one polynomial contrast from each factor of the source, and weights a cell by
the product of their coefficients.  The combinations are numbered like the cells of a shape whose
extents are one less than the numbers of levels, and the columns of scores follow that order.

A column is divided by the Euclidean norm of its weights, so that each contrast has unit length.
The weights themselves are whole numbers, and the division comes after the weighted sum: on a
constant row of whole numbers the sum is then exactly zero in floating point as well.

Weights and norms are added up as whole numbers of any size.  For how many cells 64 bits are enough
is seen in `SplitPlot.Machine`.
-/

namespace SplitPlot

/-! ## Weights of combined contrasts -/

/-- The numbers of contrasts of factors with the given numbers of levels. -/
def contrastShape (levels : List Nat) : List Nat := levels.map (· - 1)

/-- The weight of one level in one contrast of a factor, or zero outside the table. -/
def levelWeight (levels contrast level : Nat) : Int :=
  ((coefficients levels contrast).map fun row => row.getD level 0).getD 0

/-- The weight of a cell in a combination of contrasts: the product of the weights of its
levels. -/
def contrastWeight (levels combination cell : List Nat) : Int :=
  (((combination.zip cell).zip levels).map fun e => levelWeight e.2 e.1.1 e.1.2).foldl (· * ·) 1

/-- The sum of the squared weights of a combination of contrasts, of any size.  In 64 bits it is
`wordNorm`. -/
def squaredNorm (levels combination : List Nat) : Int :=
  ((multiIndices levels).map fun cell =>
    let weight := contrastWeight levels combination cell
    weight * weight).foldl (· + ·) 0

variable {K : Type} [Scalar K]

/-- The Euclidean norm of the weights of a combination of contrasts. -/
def contrastNorm (levels combination : List Nat) : K :=
  Scalar.sqrt ((squaredNorm levels combination : Int) : K)

/-- The weights of all combinations: one row per cell and one column per combination. -/
def contrastWeights (levels : List Nat) : Mat K :=
  let combinations := (multiIndices (contrastShape levels)).toArray
  let cells := (multiIndices levels).toArray
  .ofFn cells.size combinations.size fun cell c =>
    (contrastWeight levels (combinations.getD c []) (cells.getD cell []) : K)

/-! ## Scores -/

/-- The contrast scores of a source within subjects. -/
structure ContrastScores (K : Type) where
  /-- The source, whose factors all vary within subjects. -/
  source : Source
  /-- The scores: one row per subject and one column per combination of contrasts. -/
  columns : Mat K
  /-- The statistics of the cells between subjects. -/
  cells : CellStatistics K

namespace ContrastScores

/-- The number of variables. -/
def size (d : ContrastScores K) : Nat := d.columns.cols

/-- Whether there is no variable. -/
def isEmpty (d : ContrastScores K) : Bool := d.size == 0

end ContrastScores

namespace Design

/-- The scores averaged over every factor within subjects whose axis is not to be kept, the last
one first. -/
def averageOutside (d : Design K) (keep : List Nat) : Grid K :=
  (((List.range d.withinFactors.length).reverse.filter fun a => !keep.contains a).foldl
    fun scores axis => scores.meanDrop (axis + 1)) d.scores

/-- The scores of each subject over the cells of the kept factors, one row per subject. -/
def reducedScores (d : Design K) (keep : List Nat) : Mat K :=
  let reduced := d.averageOutside keep
  let levels := reduced.shape.tail
  .ofFn (reduced.extent 0) (cellCount levels) fun s cell =>
    reduced.get (s :: unravel levels cell)

/-- The contrast scores of each subject, one column per combination of contrasts. -/
def contrastColumns (d : Design K) (s : Source) : Mat K :=
  let axes := d.withinAxes s
  let levels := axes.map fun a => d.withinShape.getD a 0
  let sums := d.reducedScores axes * contrastWeights levels
  let norms : Array K := ((multiIndices (contrastShape levels)).map (contrastNorm levels)).toArray
  .ofFn sums.rows sums.cols fun i c => sums.get i c / norms.getD c 1

/-- The first factor of a source that has more levels than there are contrasts for. -/
def oversized? (d : Design K) (s : Source) : Option Factor :=
  (s.factors.map d.factor).find? fun f => maxWithinLevels < f.levelCount

/-- The contrast scores of a source, whose factors all have to vary within subjects. -/
def contrastScores (d : Design K) (s : Source) : Except Failure (ContrastScores K) :=
  if ¬ s.isSubsetOf d.withinMask then .error (.fault .contrastBetweenSubjects)
  else
    match d.oversized? s with
    | some f => .error (.design (.tooManyWithinLevels f.name f.levelCount maxWithinLevels))
    | none => do
      let columns := d.contrastColumns s
      let cells ← Failure.ofFault (CellStatistics.compute columns d.subjectCells d.betweenShape)
      return ⟨s, columns, cells⟩

end Design

end SplitPlot
