import SplitPlot.Special.IncompleteGamma

/-!
# Tail probabilities

The probability that a statistic exceeds the observed value when there is no effect.  Degrees of
freedom are numbers of the scalar type and not whole numbers, because the approximation for
Wilks' Lambda gives fractional ones.

A statistic that is not positive, or no number, exceeds nothing and has probability one; so has
one without degrees of freedom.

The tail of the F distribution is an incomplete beta function, and so it has no value where the
flips of that function do not end.
-/

namespace SplitPlot

variable {K : Type} [Scalar K]

/-- The probability that an F statistic with the given degrees of freedom exceeds `f`. -/
def fTail (dfNum dfDen f : K) : Option K :=
  if ¬ Scalar.IsNumber f ∨ f ≤ 0 ∨ dfNum ≤ 0 ∨ dfDen ≤ 0 then some 1
  else if ¬ Scalar.IsFinite f then some 0
  else
    incompleteBeta (dfDen / (dfDen + dfNum * f)) (Scalar.half dfDen) (Scalar.half dfNum)

/-- The probability that a chi-square statistic with the given degrees of freedom exceeds `x`. -/
def chiSquareTail (x df : K) : K :=
  if x ≤ 0 ∨ df ≤ 0 ∨ ¬ Scalar.IsNumber x then 1
  else upperGamma (Scalar.half df) (Scalar.half x)

end SplitPlot
