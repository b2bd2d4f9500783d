/-!
# The arithmetic of an analysis

Every number of an analysis --- a score, a mean, a determinant, a probability --- is of one type
`K`, and the whole library is written against `Scalar K`: the operations it needs and nothing
about them.

## Why operations without laws

An analysis is run in floating point, where addition is not associative and subtraction of equal
numbers may fail to be zero.  Most of what one wants to know of a design is a fact of exact
arithmetic.  A class that carried the laws of a field would have no floating-point instance, and
two copies of the library would have to be shown to agree.  Here there is one copy.  A statement
that holds whatever addition does is a statement about `Scalar K` for every `K`; a statement of
exact arithmetic is one about `K = ℝ`.

For the same reason the order in which a sum is formed is part of every definition: sums run from
the left and start at zero (`SplitPlot.total`).

## Comparisons

Floating point has a value that compares with nothing.  A test that must answer `false` on it is
written through `<` and `≤` on the value itself, never as the negation of the opposite test:
`IsZero x` is `x ≤ 0 ∧ 0 ≤ x`, and `IsNumber x` is `x ≤ x`.
-/

namespace SplitPlot

/-- The operations on numbers that an analysis uses. -/
class Scalar (K : Type) extends
    Zero K, One K, Add K, Sub K, Mul K, Div K, Neg K, NatCast K, IntCast K, OfScientific K,
    LT K, LE K where
  /-- The order can be tested. -/
  decideLT : DecidableLT K
  /-- The weak order can be tested. -/
  decideLE : DecidableLE K
  /-- The square root. -/
  sqrt : K → K
  /-- The exponential function. -/
  exp : K → K
  /-- The natural logarithm. -/
  log : K → K
  /-- The sine. -/
  sin : K → K
  /-- The power of a base to a real exponent. -/
  pow : K → K → K
  /-- The ratio of a circle's circumference to its diameter. -/
  pi : K
  /-- The value given for the logarithm of the gamma function outside its domain. -/
  infinity : K

namespace Scalar

instance {K : Type} [Scalar K] : DecidableLT K := Scalar.decideLT

instance {K : Type} [Scalar K] : DecidableLE K := Scalar.decideLE

/-- Floating point. -/
instance : Scalar Float where
  zero := 0
  one := 1
  natCast := Float.ofNat
  intCast := Float.ofInt
  decideLT := inferInstance
  decideLE := inferInstance
  sqrt := Float.sqrt
  exp := Float.exp
  log := Float.log
  sin := Float.sin
  pow := Float.pow
  pi := 3.141592653589793
  infinity := 1 / 0

variable {K : Type} [Scalar K]

/-- Neither above nor below zero.  A value that compares with nothing is not zero. -/
def IsZero (x : K) : Prop := x ≤ 0 ∧ 0 ≤ x

instance (x : K) : Decidable (IsZero x) := inferInstanceAs (Decidable (_ ∧ _))

/-- Comparable with itself. -/
def IsNumber (x : K) : Prop := x ≤ x

instance (x : K) : Decidable (IsNumber x) := inferInstanceAs (Decidable (_ ≤ _))

/-- A value is finite when it leaves nothing behind on being subtracted from itself. -/
def IsFinite (x : K) : Prop := IsZero (x - x)

instance (x : K) : Decidable (IsFinite x) := inferInstanceAs (Decidable (IsZero _))

/-- The absolute value. -/
def abs (x : K) : K := if x < 0 then -x else x

/-- The larger of two values, and the other one if one of them is no number. -/
def larger (x y : K) : K := if x < y then y else if IsNumber x then x else y

/-- The smaller of two values, and the other one if one of them is no number. -/
def smaller (x y : K) : K := if y < x then y else if IsNumber x then x else y

/-- The member of the range from `lo` to `hi` that is nearest to `x`. -/
def clamp (lo hi x : K) : K := if x < lo then lo else if hi < x then hi else x

/-- The square. -/
def square (x : K) : K := x * x

/-- Half of a value. -/
def half (x : K) : K := x / ((2 : Nat) : K)

/-- The quotient, or zero where the divisor is not positive. -/
def ratio (x y : K) : K := if 0 < y then x / y else 0

end Scalar

end SplitPlot
