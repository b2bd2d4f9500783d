import SplitPlot.Mean

/-!
# The logarithm of the gamma function

On arguments of at least one half the function is approximated by a partial fraction with fixed
coefficients (Lanczos, with `g = 7` and nine terms), which is accurate to the precision of
floating point.  Below one half the reflection `Γ x Γ (1 - x) = π / sin (π x)` leads back to that
range, since `1 - x` is then at least one half.
-/

namespace SplitPlot

variable {K : Type} [Scalar K]

/-- The constant term of the partial fraction. -/
def lanczosHead : K := 0.99999999999980993

/-- The numerators of the partial fraction, for the poles at `-1`, `-2` and so on. -/
def lanczosTail : List K :=
  [676.5203681218851, -1259.1392167224028, 771.32342877765313, -176.61502916214059,
    12.507343278686905, -0.13857109526572012, 9.9843695780195716e-6, 1.5056327351493116e-7]

/-- The partial fraction at `x`. -/
def lanczosSum (x : K) : K :=
  lanczosTail.zipIdx.foldl (fun sum e => sum + e.1 / (x + ((e.2 + 1 : Nat) : K))) lanczosHead

/-- The approximation of the logarithm of the gamma function, for `x` at least one half. -/
def lanczosLogGamma (x : K) : K :=
  let z := x - 1
  let t := z + ((7 : Nat) : K) + 0.5
  0.5 * Scalar.log (((2 : Nat) : K) * Scalar.pi) + (z + 0.5) * Scalar.log t - t
    + Scalar.log (lanczosSum z)

/-- The logarithm of the gamma function.  It is infinite where the argument is not positive. -/
def logGamma (x : K) : K :=
  if x ≤ 0 then Scalar.infinity
  else if x < 0.5 then
    Scalar.log (Scalar.pi / Scalar.sin (Scalar.pi * x)) - lanczosLogGamma (1 - x)
  else lanczosLogGamma x

end SplitPlot
