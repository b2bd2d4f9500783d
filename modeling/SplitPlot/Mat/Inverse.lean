import SplitPlot.Mat.Determinant

/-!
# Inverses

Up to order four the inverse is the transposed matrix of the cofactors over the determinant; it
fails when that determinant is zero.  A larger matrix is inverted by solving for the unit matrix:
elimination from the top, then substitution from the bottom.  It fails when a pivot is zero, which
after the exchange of rows means that a whole column is.

## The range of floating point

All of this is one formula in exact arithmetic.  In floating point the steps differ in what they
do near the ends of the range, so each order fixes its own:

* up to order three every cofactor is divided by the determinant;
* at order four the cofactors are sums of products of three entries, the determinant is expanded
  along the first column, and the cofactors are multiplied by its reciprocal.  The reciprocal of a
  tiny determinant may be infinite, and then no entry of the inverse is finite;
* above, each unknown takes the later ones away one at a time, the last one first.
-/

namespace SplitPlot

namespace Mat

variable {K : Type} [Scalar K]

/-! ## Cofactors -/

/-- The transposed matrix of the cofactors of a square matrix. -/
def adjugate (a : Mat K) : Mat K :=
  ofFn a.rows a.rows fun i j => alternating (i + j) * expand (a.rows - 1) (a.minor j i)

/-- The inverse of a square matrix by division of its cofactors. -/
def divideCofactors? (a : Mat K) : Option (Mat K) :=
  let value := expand a.rows a
  if Scalar.IsZero value then none
  else
    let cofactors := a.adjugate
    some (ofFn a.rows a.rows fun i j => cofactors.get i j / value)

/-- The determinant of a matrix of order three, as the sum of the products of its six
diagonals. -/
def sarrus (a : Mat K) : K :=
  a.get 0 0 * a.get 1 1 * a.get 2 2 - a.get 0 0 * a.get 2 1 * a.get 1 2
    - a.get 0 1 * a.get 1 0 * a.get 2 2 + a.get 0 1 * a.get 2 0 * a.get 1 2
    + a.get 0 2 * a.get 1 0 * a.get 2 1 - a.get 0 2 * a.get 2 0 * a.get 1 1

/-- The transposed matrix of the cofactors of a matrix of order four. -/
def adjugateFour (a : Mat K) : Mat K :=
  ofFn 4 4 fun i j => alternating (i + j) * (a.minor j i).sarrus

/-- The inverse of a matrix of order four by multiplication of its cofactors with the reciprocal
of the determinant. -/
def scaleCofactors? (a : Mat K) : Option (Mat K) :=
  let cofactors := a.adjugateFour
  let value := total ((List.range 4).map fun i => a.get i 0 * cofactors.get 0 i)
  if Scalar.IsZero value then none
  else
    let reciprocal := 1 / value
    some (ofFn 4 4 fun i j => cofactors.get i j * reciprocal)

/-! ## Elimination -/

/-- The solution of a system of `n` equations whose right-hand sides are the columns of `b`. -/
def solve? : Nat → Mat K → Mat K → Option (Mat K)
  | 0, _, b => some (ofFn 0 b.cols fun _ _ => 0)
  | n + 1, a, b => do
    let p := a.pivotRow
    let a := a.raise p
    let b := b.raise p
    let pivot := a.get 0 0
    if Scalar.IsZero pivot then none
    else
      let below ← solve? n (a.clear a 1) (a.clear b 0)
      some <| ofFn (n + 1) b.cols fun i j =>
        if i = 0 then
          (List.range n).foldr (fun k rest => rest - a.get 0 (k + 1) * below.get k j) (b.get 0 j)
            / pivot
        else below.get (i - 1) j

/-! ## The inverse -/

/-- The inverse of a square matrix, if it has one. -/
def inverse? (a : Mat K) : Option (Mat K) :=
  if ¬ a.IsSquare then none
  else if a.rows ≤ 3 then a.divideCofactors?
  else if a.rows = 4 then a.scaleCofactors?
  else solve? a.rows a (identity a.rows)

end Mat

end SplitPlot
