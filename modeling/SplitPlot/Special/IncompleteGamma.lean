import SplitPlot.Special.IncompleteBeta

/-!
# The regularized upper incomplete gamma function

`Q a x` is the integral of `t ^ (a - 1) * exp (-t)` from `x` on, divided by the gamma function at
`a`.  Below `x = a + 1` the complement is summed as a series; above, the function is a continued
fraction.  Either way the common factor is `x ^ a * exp (-x)` over the gamma function, taken
through its logarithm.  Rounding can carry the result past the ends of the unit interval, so it
is brought back.
-/

namespace SplitPlot

variable {K : Type} [Scalar K]

/-- The number that replaces a ratio too close to zero. -/
def gammaTiny : K := 1e-300

/-- The relative change at which a series or fraction ends. -/
def gammaTolerance : K := 1e-15

/-- The number of terms of the series. -/
def gammaTerms : Nat := 500

/-- The logarithm of the common factor. -/
def gammaLogFront (a x : K) : K := -x + a * Scalar.log x - logGamma a

/-- The sum of the series after at most `n` further terms.  The last term taken was `term`, with
denominator `p`. -/
def gammaSeries (x : K) : (n : Nat) → (p term sum : K) → K
  | 0, _, _, sum => sum
  | n + 1, p, term, sum =>
    let p := p + 1
    let term := term * (x / p)
    let sum := sum + term
    if Scalar.abs term < Scalar.abs sum * gammaTolerance then sum
    else gammaSeries x n p term sum

/-- The value of the fraction after at most `n` further steps.  The next step has number `i`, and
`b` is the last partial denominator. -/
def gammaFraction (a : K) : (n i : Nat) → (b : K) → FractionState K → K
  | 0, _, _, s => s.value
  | n + 1, i, b, s =>
    let numerator := -(i : K) * ((i : K) - a)
    let b := b + ((2 : Nat) : K)
    let d := 1 / FractionState.guard gammaTiny (numerator * s.d + b)
    let c := FractionState.guard gammaTiny (b + numerator / s.c)
    let next : FractionState K := ⟨c, d, s.value * (d * c)⟩
    if Scalar.abs (next.change - 1) < gammaTolerance then next.value
    else gammaFraction a n (i + 1) b next

/-- The regularized upper incomplete gamma function. -/
def upperGamma (a x : K) : K :=
  if x ≤ 0 ∨ a ≤ 0 then 1
  else
    let front := Scalar.exp (gammaLogFront a x)
    if x < a + 1 then
      Scalar.clamp 0 1 (1 - gammaSeries x gammaTerms a (1 / a) (1 / a) * front)
    else
      let b := x + 1 - a
      let start : FractionState K := ⟨1 / gammaTiny, 1 / b, 1 / b⟩
      Scalar.clamp 0 1 (front * gammaFraction a (gammaTerms - 1) 1 b start)

end SplitPlot
