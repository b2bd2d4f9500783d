import SplitPlot.ErrorMatrices
import SplitPlot.Settings
import SplitPlot.Tail

/-!
# Tests of significance

A sum of squares is tested by the F of a model comparison.  The error matrices of a source within
subjects are brought to the same test through their determinants, which with several variables is
the exact F of Hotelling.  The error matrices of a source with factors of both kinds are tested
through Wilks' Lambda, converted to F by Rao's approximation or to chi-square by Bartlett's.

## Degeneracy

A test cannot always be carried out: the data may leave no error, the source may have no degrees
of freedom.  That is no failure of the analysis.  The statistic is then reported as `F = 0` and
`p = 1` together with the reason, and the other numbers stand as far as they are defined.  The
order in which the reasons are looked for is part of the definition of each test, since more than
one may hold.

## Probabilities that are not there

The tail of the F distribution has no value where its evaluation does not end.  A test keeps that as
it is: all its numbers are there except the probability, and who waits for the probability waits for
ever.
-/

namespace SplitPlot

/-- Why a test could not be carried out. -/
inductive Degeneracy where
  /-- The full model leaves no error. -/
  | zeroErrorVariance
  /-- The restricted error matrix is singular. -/
  | singularRestrictedModel
  /-- The source has no degrees of freedom. -/
  | zeroNumeratorDf
  /-- There are too few subjects for error degrees of freedom. -/
  | nonPositiveDenominatorDf
  deriving DecidableEq, Repr

instance : ToString Degeneracy where
  toString
    | .zeroErrorVariance => "zero error variance"
    | .singularRestrictedModel => "singular restricted model"
    | .zeroNumeratorDf => "zero numerator df"
    | .nonPositiveDenominatorDf => "non-positive denominator df"

/-- The test of one source. -/
structure Significance (K : Type) where
  /-- The sum of squares, or for error matrices the difference of their determinants. -/
  ss : K
  /-- The error sum of squares, or the determinant of the full error matrix. -/
  errorSs : K
  /-- The degrees of freedom of the source. -/
  dfNum : K
  /-- The degrees of freedom of the error. -/
  dfDen : K
  /-- The mean square of the source. -/
  ms : K
  /-- The mean square of the error. -/
  msError : K
  /-- The F statistic. -/
  f : K
  /-- The probability that the statistic is exceeded, unless its evaluation does not end. -/
  p : Option K
  /-- Wilks' Lambda, where that is what was tested. -/
  wilksLambda : Option K
  /-- Bartlett's chi-square, where that was asked for. -/
  chiSquare : Option K
  /-- Why there is no proper statistic. -/
  degeneracy : Option Degeneracy

namespace Significance

variable {K : Type} [Scalar K]

/-- The sums of squares, degrees of freedom and mean squares of a test that has not been carried
out. -/
def untested (ss errorSs dfNum dfDen : K) : Significance K where
  ss := ss
  errorSs := errorSs
  dfNum := dfNum
  dfDen := dfDen
  ms := Scalar.ratio ss dfNum
  msError := Scalar.ratio errorSs dfDen
  f := 0
  p := some 1
  wilksLambda := none
  chiSquare := none
  degeneracy := none

/-- A test that could not be carried out. -/
def degenerate (s : Significance K) (reason : Degeneracy) : Significance K :=
  { s with f := 0, p := some 1, degeneracy := some reason }

/-! ## One variable -/

/-- The test of a sum of squares. -/
def univariate (ss errorSs dfNum dfDen : K) : Significance K :=
  let s := untested ss errorSs dfNum dfDen
  if dfNum ≤ 0 then s.degenerate .zeroNumeratorDf
  else if dfDen ≤ 0 then s.degenerate .nonPositiveDenominatorDf
  else if s.msError ≤ 0 then s.degenerate .zeroErrorVariance
  else
    let f := Scalar.larger (s.ms / s.msError) 0
    { s with f := f, p := fTail dfNum dfDen f }

/-- The test of a source within subjects, on the determinants of its error matrices. -/
def withinSubjects (m : ErrorMatrices K) (dfNum dfDen : K) : Significance K :=
  let full := m.fullDet
  univariate (m.restrictedDet - full) full dfNum dfDen

/-- The F statistic of a comparison of two models, from the determinants of their error
matrices. -/
def determinantF (m : ErrorMatrices K) (dfNum dfDen : K) : K :=
  let full := m.fullDet
  ((m.restrictedDet - full) / dfNum) / (full / dfDen)

/-! ## Wilks' Lambda -/

/-- Rao's exponent for `p` variables and `k` cells between subjects.  It is one where the formula
gives no positive number. -/
def raoExponent (p k : Nat) : K :=
  let h : K := (k : K) - 1
  let den : K := (p : K) * p + h * h - ((5 : Nat) : K)
  if Scalar.IsZero den then 1
  else
    let s := Scalar.sqrt ((Scalar.square ((p : K) * h) - ((4 : Nat) : K)) / den)
    if Scalar.IsFinite s ∧ 0 < s then s else 1

/-- The factor that both approximations take from the number of subjects `n`. -/
def lambdaFactor (p k n : Nat) : K := (n : K) - 1 - Scalar.half ((p + k : Nat) : K)

/-- The error degrees of freedom of Rao's approximation. -/
def raoDenominatorDf (p k n : Nat) (dfNum : K) : K :=
  lambdaFactor p k n * raoExponent p k - Scalar.half dfNum + 1

/-- Rao's F statistic for Wilks' Lambda, with exponent `s`. -/
def lambdaF (lambda s dfNum dfDen : K) : K :=
  let w := Scalar.pow lambda (1 / s)
  ((1 - w) / w) * (dfDen / dfNum)

/-- Bartlett's chi-square statistic for Wilks' Lambda. -/
def bartlettChiSquare (lambda : K) (p k n : Nat) : K :=
  -lambdaFactor p k n * Scalar.log lambda

/-- The test of a source with factors of both kinds, for `k` cells between subjects and `n`
subjects. -/
def multivariate (m : ErrorMatrices K) (k n : Nat) (dfNum : K) (test : LambdaTest) :
    Significance K :=
  let p := m.variableCount
  let dfDen := raoDenominatorDf p k n dfNum
  let full := m.fullDet
  let restricted := m.restrictedDet
  let s := untested (restricted - full) full dfNum dfDen
  if dfNum ≤ 0 then s.degenerate .zeroNumeratorDf
  else if restricted ≤ 0 then s.degenerate .singularRestrictedModel
  else if full ≤ 0 then s.degenerate .zeroErrorVariance
  else if dfDen ≤ 0 then s.degenerate .nonPositiveDenominatorDf
  else
    let lambda := Scalar.smaller (full / restricted) 1
    let f := Scalar.larger (lambdaF lambda (raoExponent p k) dfNum dfDen) 0
    match test with
    | .rao => { s with f := f, p := fTail dfNum dfDen f, wilksLambda := some lambda }
    | .bartlett =>
      let chi := Scalar.larger (bartlettChiSquare lambda p k n) 0
      { s with
        f := f
        p := some (chiSquareTail chi dfNum)
        wilksLambda := some lambda
        chiSquare := some chi }

/-! ## Degrees of freedom -/

/-- The degrees of freedom of a source whose factors have the given numbers of levels. -/
def numeratorDf (levels : List Nat) : K := product (levels.map fun l => ((l - 1 : Nat) : K))

/-- The error degrees of freedom of a source between subjects. -/
def betweenDenominatorDf (subjects cells : Nat) : K := (subjects : K) - (cells : K)

/-- The error degrees of freedom of a source within subjects. -/
def withinDenominatorDf (subjects cells : Nat) (dfNum : K) : K :=
  (subjects : K) - (cells : K) - dfNum + 1

end Significance

end SplitPlot
