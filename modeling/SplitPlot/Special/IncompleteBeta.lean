import SplitPlot.Special.Gamma

/-!
# The regularized incomplete beta function

`I x a b` is the integral of `t ^ (a - 1) * (1 - t) ^ (b - 1)` from zero to `x`, divided by the
integral from zero to one.  It is computed as a front factor times a continued fraction.

## The fraction

The fraction `1 + a₁ / (1 + a₂ / (1 + ⋯))` is evaluated from the front.  The state of the
evaluation keeps the value of the part evaluated so far and the two ratios by which the next
numerator changes it: `c` is the ratio of the last two numerators of the convergents, and `d` that
of the last two denominators, inverted.  A ratio too close to zero is replaced by a tiny number.
One pass takes an even and an odd partial numerator.  The evaluation ends when the odd step
changes the value by a relative amount below the tolerance, and after `betaPasses` passes at the
latest.  The leading `1 +` is part of the value and is taken off at the end.

## The flip

The fraction converges fast for `x` below `(a + 1) / (a + b + 2)`.  Above that, the symmetry
`I x a b = 1 - I (1 - x) b a` leads to the fast side.  The call with the flipped arguments is the
function itself, and nothing in it bounds the number of flips.  The two thresholds add up to one, so
in exact arithmetic an argument is never flipped twice.  But rounded thresholds need not add up to
one.  An argument between the one and what the other leaves of one is flipped back and forth for
ever, and a call with such an argument does not come to an end.  With 53 bits,
`x = 0.6906315592619565` is one for `a = 4.58097941094407` and `b = 1.5`.

Two flips are enough to know.  What is left when a number between zero and one is taken from one is
a multiple of the last place of one half, rounded or not.  The differences after it are exact for
that reason, and taken from one twice more it comes back as it was.  The arguments after a third
flip are therefore those after the first, and an evaluation that asks for a third flip asks for
another one ever after.  That is where `flipping` stops.  It has no value then, and whatever asks
for one can see that.
-/

namespace SplitPlot

variable {K : Type} [Scalar K]

/-! ## The continued fraction -/

/-- The state of a continued fraction that is evaluated from the front. -/
structure FractionState (K : Type) where
  /-- The ratio of the last two numerators of the convergents. -/
  c : K
  /-- The ratio of the last but one to the last denominator of the convergents. -/
  d : K
  /-- The value of the part evaluated so far. -/
  value : K

namespace FractionState

/-- The fraction `1`, before any partial numerator. -/
def start : FractionState K := ⟨1, 0, 1⟩

/-- Replaces a number closer to zero than `tiny`. -/
def guard (tiny x : K) : K := if Scalar.abs x < tiny then tiny else x

/-- Takes a further partial numerator over the partial denominator one. -/
def step (tiny numerator : K) (s : FractionState K) : FractionState K :=
  let d := 1 / guard tiny (1 + numerator * s.d)
  let c := guard tiny (1 + numerator / s.c)
  ⟨c, d, s.value * (d * c)⟩

/-- The factor by which the last step changed the value. -/
def change (s : FractionState K) : K := s.d * s.c

end FractionState

/-- The partial numerator of the even step of pass `m`. -/
def betaEven (x a b : K) (m : Nat) : K :=
  if m = 0 then 1
  else
    ((m : K) * (b - m) * x)
      / ((a + ((2 : Nat) : K) * m - 1) * (a + ((2 : Nat) : K) * m))

/-- The partial numerator of the odd step of pass `m`. -/
def betaOdd (x a b : K) (m : Nat) : K :=
  -((a + m) * (a + b + m) * x)
    / ((a + ((2 : Nat) : K) * m) * (a + ((2 : Nat) : K) * m + 1))

/-- The number that replaces a ratio too close to zero. -/
def betaTiny : K := 1e-30

/-- The relative change of the value at which the evaluation ends. -/
def betaTolerance : K := 1e-14

/-- The largest number of passes. -/
def betaPasses : Nat := 300

/-- One pass: the even step and the odd step. -/
def betaPass (x a b : K) (m : Nat) (s : FractionState K) : FractionState K :=
  (s.step betaTiny (betaEven x a b m)).step betaTiny (betaOdd x a b m)

/-- The state after at most `n` passes, the first of which has number `m`. -/
def betaFraction (x a b : K) : (n m : Nat) → FractionState K → FractionState K
  | 0, _, s => s
  | n + 1, m, s =>
    let next := betaPass x a b m s
    if Scalar.abs (next.change - 1) < betaTolerance then next
    else betaFraction x a b n (m + 1) next

/-! ## The function -/

/-- The factor in front of the fraction. -/
def betaFront (x a b : K) : K :=
  let logBeta := logGamma a + logGamma b - logGamma (a + b)
  Scalar.exp (Scalar.log x * a + Scalar.log (1 - x) * b - logBeta) / a

/-- The front factor times the fraction, which converges fast below the threshold. -/
def betaSeries (x a b : K) : K :=
  betaFront x a b * ((betaFraction x a b betaPasses 0 .start).value - 1)

/-- The argument above which the symmetry leads to a faster fraction. -/
def betaThreshold (a b : K) : K := (a + 1) / (a + b + ((2 : Nat) : K))

/-- A function that is evaluated by a series up to the threshold, and beyond it with the flipped
arguments.  It has no value where that takes more than the given number of flips. -/
def flipping? (series : K → K → K → K) (flips : Nat) (x a b : K) : Option K :=
  if x ≤ 0 then some 0
  else if 1 ≤ x then some 1
  else if betaThreshold a b < x then
    match flips with
    | 0 => none
    | flips + 1 => (flipping? series flips (1 - x) b a).map fun v => 1 - v
  else some (series x a b)

/-- The largest number of flips of an evaluation that ends. -/
def betaFlips : Nat := 2

/-- A function that is evaluated by a series up to the threshold, and beyond it with the flipped
arguments.  It has no value where the flips do not end. -/
def flipping (series : K → K → K → K) (x a b : K) : Option K := flipping? series betaFlips x a b

/-- The regularized incomplete beta function, if it takes at most the given number of flips. -/
def incompleteBeta? (flips : Nat) (x a b : K) : Option K := flipping? betaSeries flips x a b

/-- The regularized incomplete beta function. -/
def incompleteBeta (x a b : K) : Option K := flipping betaSeries x a b

end SplitPlot
