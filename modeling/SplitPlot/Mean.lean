import SplitPlot.Scalar

/-!
# Sums, products and means

The sums of an analysis run over short lists, and in floating point their value depends on the
order in which they are formed.  `total` fixes it: from the left, starting at zero.  Everything
that adds --- a mean, a cell sum, an entry of a matrix product --- is written through `total`, so
that there is one place where a sum over a list meets the sum of exact arithmetic.

`harmonicMean` is the mean that an unbalanced design weights its cells with.  A cell without
subjects has count zero and no reciprocal; the mean is then zero, which is also its limit as the
count goes to zero.
-/

namespace SplitPlot

variable {K : Type} [Scalar K]

/-- The sum of a list, formed from the left. -/
def total (l : List K) : K := l.foldl (· + ·) 0

@[simp] theorem total_nil : total ([] : List K) = 0 := rfl

/-- A further summand is added on the right. -/
@[simp] theorem total_concat (l : List K) (x : K) : total (l ++ [x]) = total l + x := by
  simp [total]

/-- The product of a list, formed from the left. -/
def product (l : List K) : K := l.foldl (· * ·) 1

@[simp] theorem product_nil : product ([] : List K) = 1 := rfl

/-- A further factor is multiplied on the right. -/
@[simp] theorem product_concat (l : List K) (x : K) : product (l ++ [x]) = product l * x := by
  simp [product]

/-- The arithmetic mean. -/
def mean (l : List K) : K := total l / (l.length : K)

/-- The number of values over the sum of their reciprocals, and zero if there is no value, if one
of them is zero, or if the reciprocals cancel. -/
def harmonicMean (l : List K) : K :=
  if l.any (Scalar.IsZero ·) then 0
  else
    let reciprocals := total (l.map (1 / ·))
    if l.isEmpty ∨ Scalar.IsZero reciprocals then 0 else (l.length : K) / reciprocals

end SplitPlot
