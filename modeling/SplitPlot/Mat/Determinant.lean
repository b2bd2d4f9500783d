import SplitPlot.Fault
import SplitPlot.Mat

/-!
# Determinants

Matrices of order at most three are expanded along the first row.  Larger ones are eliminated:
the row with the largest first entry is brought to the top, its multiples clear the first column
below it, and what remains is a matrix of order one less, whose determinant is multiplied by the
pivot, negatively if two rows were exchanged.  In exact arithmetic the two ways agree; in floating
point elimination is the stable one, and the expansion is exact on small integers.

## Singular error matrices

A matrix of sums of squares and cross products is positive semidefinite, so its determinant is
not negative and at most the product of its diagonal.  Rounding breaks the first bound just where
the matrix is singular.  `sscpDet` therefore reads a determinant as zero if it is negative or if
it is within `singularityTolerance` of zero relative to that product; the test does not depend on
the units of the variables, since a change of units multiplies both by the same factor.
-/

namespace SplitPlot

namespace Mat

variable {K : Type} [Scalar K]

/-! ## Expansion -/

/-- The matrix without row `i` and column `j`. -/
def minor (a : Mat K) (i j : Nat) : Mat K :=
  ofFn (a.rows - 1) (a.cols - 1) fun r c =>
    a.get (if r < i then r else r + 1) (if c < j then c else c + 1)

/-- Plus one at even places and minus one at odd ones. -/
def alternating (i : Nat) : K := if i % 2 = 0 then 1 else -1

/-- The determinant of a matrix of order `n` by expansion along the first row. -/
def expand : Nat → Mat K → K
  | 0, _ => 1
  | n + 1, a =>
    total ((List.range (n + 1)).map fun j =>
      alternating j * a.get 0 j * expand n (a.minor 0 j))

/-! ## Elimination -/

/-- The first row whose entry in the first column is largest in absolute value. -/
def pivotRow (a : Mat K) : Nat :=
  (List.range a.rows).foldl
    (fun best i => if Scalar.abs (a.get best 0) < Scalar.abs (a.get i 0) then i else best) 0

/-- Exchanges the first row with row `p`. -/
def raise (a : Mat K) (p : Nat) : Mat K :=
  if p = 0 then a
  else ofFn a.rows a.cols fun i j => a.get (if i = 0 then p else if i = p then 0 else i) j

/-- The rows of `b` below the first after those multiples of its first row have been taken away
that clear the first column of `a`, from column `c` on.  A pivot of zero leaves them as they
are. -/
def clear (a b : Mat K) (c : Nat) : Mat K :=
  let pivot := a.get 0 0
  if Scalar.IsZero pivot then
    ofFn (b.rows - 1) (b.cols - c) fun i j => b.get (i + 1) (j + c)
  else
    let reciprocal := 1 / pivot
    ofFn (b.rows - 1) (b.cols - c) fun i j =>
      b.get (i + 1) (j + c) - a.get (i + 1) 0 * reciprocal * b.get 0 (j + c)

/-- The product of `acc` and the determinant of a matrix of order `n`, by elimination. -/
def eliminate : Nat → K → Mat K → K
  | 0, acc, _ => acc
  | n + 1, acc, a =>
    let p := a.pivotRow
    let b := a.raise p
    let next := acc * b.get 0 0
    eliminate n (if p = 0 then next else -next) (b.clear b 1)

/-! ## The determinant -/

/-- The determinant of a square matrix. -/
def det (a : Mat K) : K :=
  if a.rows ≤ 3 then expand a.rows a else eliminate a.rows 1 a

/-- The determinant of a matrix that has to be square. -/
def determinant (a : Mat K) : Except Fault K :=
  if a.IsSquare then .ok a.det else .error .nonSquareDeterminant

/-- The size below which the determinant of an error matrix, taken relative to the product of the
diagonal, is read as zero. -/
def singularityTolerance : K := 1e-12

/-- The determinant of a matrix of sums of squares and cross products, with rounding around a
singular matrix read as zero. -/
def sscpDet (a : Mat K) : K :=
  let value := a.det
  let bound := product a.diagonal
  if value ≤ 0 ∨ bound ≤ 0 ∨ value ≤ bound * singularityTolerance then 0 else value

/-- The determinant of a matrix of sums of squares and cross products, which has to be square. -/
def sscpDeterminant (a : Mat K) : Except Fault K :=
  if a.IsSquare then .ok a.sscpDet else .error .nonSquareDeterminant

end Mat

end SplitPlot
