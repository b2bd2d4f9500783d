import SplitPlot.Mat.Inverse

/-!
# Error matrices

A source with factors within subjects is tested by comparing two models of several variables.
Each model leaves a matrix of sums of squares and cross products: `full` is what the means of the
cells leave, and `restricted` what is left when the effect of the source is held at zero.  Their
difference is the hypothesis matrix.

Both are square by construction, which is part of the type, so their determinants always exist.
Wilks' Lambda and the two traces need a division that may be impossible; they are optional.
-/

namespace SplitPlot

/-- The error matrices of the full and of the restricted model of a source. -/
structure ErrorMatrices (K : Type) where
  /-- What the means of the cells leave. -/
  full : Mat K
  /-- What is left when the effect of the source is held at zero. -/
  restricted : Mat K
  /-- The error matrix of the full model is square. -/
  full_square : full.IsSquare
  /-- The error matrix of the restricted model is square. -/
  restricted_square : restricted.IsSquare

namespace ErrorMatrices

variable {K : Type} [Scalar K]

/-- The error matrices of two models, which have to be square. -/
def ofMats (full restricted : Mat K) : Except Fault (ErrorMatrices K) :=
  if h : full.IsSquare ∧ restricted.IsSquare then .ok ⟨full, restricted, h.1, h.2⟩
  else .error .nonSquareDeterminant

/-- The number of variables. -/
def variableCount (m : ErrorMatrices K) : Nat := m.full.rows

/-- The hypothesis matrix: the restricted error less the full one.  A model of a single variable is
stretched to the variables of the other. -/
def hypothesis (m : ErrorMatrices K) : Mat K := m.restricted - m.full

/-- The determinant of the full error matrix. -/
def fullDet (m : ErrorMatrices K) : K := m.full.sscpDet

/-- The determinant of the restricted error matrix. -/
def restrictedDet (m : ErrorMatrices K) : K := m.restricted.sscpDet

/-- Wilks' Lambda: the ratio of the two determinants, unless the restricted one is zero. -/
def wilksLambda? (m : ErrorMatrices K) : Option K :=
  let restricted := m.restrictedDet
  if 0 < restricted then some (m.fullDet / restricted) else none

/-- Pillai's trace, unless the restricted error matrix is singular. -/
def pillaiTrace? (m : ErrorMatrices K) : Option K :=
  m.restricted.inverse?.map fun inv => (m.hypothesis * inv).trace

/-- The trace of Hotelling and Lawley, unless the full error matrix is singular. -/
def hotellingLawleyTrace? (m : ErrorMatrices K) : Option K :=
  m.full.inverse?.map fun inv => (m.hypothesis * inv).trace

end ErrorMatrices

end SplitPlot
