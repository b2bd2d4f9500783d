import Mathlib
import SplitPlot.Proofs.Partial.Tables
import SplitPlot.Proofs.Partial.Tails
import SplitPlot.Proofs.Significance

/-!
# Tests that are defined

A test is defined for all sums of squares, error matrices and degrees of freedom
(`Significance.univariate_of`, `Significance.withinSubjects_map_of`,
`Significance.multivariate_map_of`): each of its divisors, and the Lambda that a power and a
logarithm are taken of, is positive by the checks that come before.  Rao's exponent tests the
divisor of its own formula, and takes the root only if it is positive
(`Significance.raoExponent_pos`).

The same checks stand between a test and the tail of its distribution.  A tail is taken with
positive degrees of freedom, of a statistic that is not negative (`Significance.TakesTail`).
-/

namespace SplitPlot

open Checked

section Map

variable {K L : Type}

/-- The test with each number taken to another one. -/
def Significance.map (f : K → L) (t : Significance K) : Significance L where
  ss := f t.ss
  errorSs := f t.errorSs
  dfNum := f t.dfNum
  dfDen := f t.dfDen
  ms := f t.ms
  msError := f t.msError
  f := f t.f
  p := t.p.map f
  wilksLambda := t.wilksLambda.map f
  chiSquare := t.chiSquare.map f
  degeneracy := t.degeneracy

/-- The error matrices with each number taken to another one. -/
def ErrorMatrices.map (f : K → L) (m : ErrorMatrices K) : ErrorMatrices L :=
  ⟨m.full.map f, m.restricted.map f, m.full.isSquare_map f m.full_square,
    m.restricted.isSquare_map f m.restricted_square⟩

end Map

namespace ErrorMatrices

variable {c : Comparison} (m : ErrorMatrices ℝ)

@[simp] theorem fullDet_map_of : (m.map (of c)).fullDet = of c m.fullDet := m.full.sscpDet_map_of

@[simp] theorem restrictedDet_map_of : (m.map (of c)).restrictedDet = of c m.restrictedDet :=
  m.restricted.sscpDet_map_of

end ErrorMatrices

namespace Significance

variable {c : Comparison}

/-! ## One variable -/

section Univariate

variable (ss errorSs dfNum dfDen : ℝ)

theorem untested_of : untested (of c ss) (of c errorSs) (of c dfNum) (of c dfDen) =
    (untested ss errorSs dfNum dfDen).map (of c) := by
  rw [untested, ratio_of, ratio_of]
  rfl

theorem univariate_of : univariate (of c ss) (of c errorSs) (of c dfNum) (of c dfDen) =
    (univariate ss errorSs dfNum dfDen).map (of c) := by
  rw [univariate, univariate, untested_of]
  have hms : ((untested ss errorSs dfNum dfDen).map (of c)).ms =
      of c (untested ss errorSs dfNum dfDen).ms := rfl
  have hmsError : ((untested ss errorSs dfNum dfDen).map (of c)).msError =
      of c (untested ss errorSs dfNum dfDen).msError := rfl
  simp only [zero_eq, of_le_iff, hms, hmsError]
  split_ifs with hnum hden herror
  · rfl
  · rfl
  · rfl
  · rw [of_div (not_le.mp herror).ne', larger_of, fTail_of]
    rfl

theorem withinSubjects_map_of (m : ErrorMatrices ℝ) :
    withinSubjects (m.map (of c)) (of c dfNum) (of c dfDen) =
      (withinSubjects m dfNum dfDen).map (of c) := by
  rw [withinSubjects, withinSubjects, m.fullDet_map_of, m.restrictedDet_map_of]
  exact univariate_of _ _ _ _

end Univariate

/-! ## Wilks' Lambda -/

section Multivariate

variable (p k n : ℕ)

/-- The divisor of Rao's formula is tested before it is used. -/
theorem raoExponent_eq : (raoExponent p k : Checked c) = of c (raoExponent p k) := by
  simp only [raoExponent, Scalar.square, natCast_eq, one_eq, of_sub, of_mul, of_add, isZero_of_iff,
    isZero_iff]
  by_cases hden : (p : ℝ) * p + (k - 1) * (k - 1) - (5 : ℕ) = 0
  · rw [if_pos hden, if_pos hden]
  · rw [if_neg hden, if_neg hden]
    simp only [of_div hden, of_sqrt, isFinite_of, isFinite, true_and, zero_eq, of_lt_iff]
    exact ite_of Iff.rfl _ _

theorem raoExponent_pos : (0 : ℝ) < raoExponent p k := by
  rw [raoExponent]
  dsimp only
  split
  · exact one_pos
  · split
    · next h => exact h.2
    · exact one_pos

theorem lambdaFactor_eq : (lambdaFactor p k n : Checked c) = of c (lambdaFactor p k n) := by
  simp only [lambdaFactor, natCast_eq, one_eq, half_of, of_sub]

theorem raoDenominatorDf_of (dfNum : ℝ) :
    raoDenominatorDf p k n (of c dfNum) = of c (raoDenominatorDf p k n dfNum) := by
  simp only [raoDenominatorDf, lambdaFactor_eq, raoExponent_eq, half_of, one_eq, of_mul, of_sub,
    of_add]

variable {lambda dfNum : ℝ} (hlambda : 0 < lambda)

include hlambda

/-- The power that Rao's statistic divides by is that of a positive number. -/
theorem lambdaF_of {s : ℝ} (hs : 0 < s) (hnum : 0 < dfNum) (dfDen : ℝ) :
    lambdaF (of c lambda) (of c s) (of c dfNum) (of c dfDen) =
      of c (lambdaF lambda s dfNum dfDen) := by
  have hpow : 0 < Scalar.pow lambda (1 / s) := Real.rpow_pos_of_pos hlambda _
  simp only [lambdaF, one_eq, of_div hs.ne', of_pow hlambda, of_sub, of_div hpow.ne',
    of_div hnum.ne', of_mul]

theorem bartlettChiSquare_of :
    bartlettChiSquare (of c lambda) p k n = of c (bartlettChiSquare lambda p k n) := by
  rw [bartlettChiSquare, bartlettChiSquare, of_log hlambda, lambdaFactor_eq, of_neg, of_mul]

omit hlambda

/-- The Lambda that is tested is the ratio of two positive determinants, and at most one. -/
theorem lambda_pos {full restricted : ℝ} (hfull : 0 < full) (hrestricted : 0 < restricted) :
    0 < Scalar.smaller (full / restricted) 1 := by
  rw [smaller_eq]
  exact lt_min (div_pos hfull hrestricted) one_pos

theorem multivariate_map_of (m : ErrorMatrices ℝ) (dfNum : ℝ) (test : LambdaTest) :
    multivariate (m.map (of c)) k n (of c dfNum) test =
      (multivariate m k n dfNum test).map (of c) := by
  have hcount : (m.map (of c)).variableCount = m.variableCount := rfl
  rw [multivariate, multivariate, hcount, m.fullDet_map_of, m.restrictedDet_map_of]
  simp only [raoDenominatorDf_of, of_sub, untested_of, raoExponent_eq, zero_eq, one_eq, of_le_iff]
  split_ifs with hnum hrestricted hfull hden
  · rfl
  · rfl
  · rfl
  · rfl
  · rw [not_le] at hnum hrestricted hfull
    have hlambda := lambda_pos hfull hrestricted
    simp only [of_div hrestricted.ne', smaller_of, lambdaF_of hlambda (raoExponent_pos _ _) hnum,
      bartlettChiSquare_of _ _ _ hlambda, larger_of, fTail_of, chiSquareTail_of]
    cases test with
    | rao => rfl
    | bartlett => rfl

end Multivariate

/-! ## Which tail is taken -/

/-- The probability is one without a statistic.  With one, the degrees of freedom are positive,
Lambda is positive and the statistic is not negative, and the probability is the tail of its
distribution. -/
def TakesTail (t : Significance ℝ) : Prop :=
  (t.degeneracy ≠ none → t.p = some 1) ∧
  (t.degeneracy = none → 0 < t.dfNum ∧ 0 < t.dfDen ∧ 0 ≤ t.f ∧
    (∀ l, t.wilksLambda = some l → 0 < l) ∧
    (t.chiSquare = none → t.p = fTail t.dfNum t.dfDen t.f) ∧
    ∀ x, t.chiSquare = some x → 0 ≤ x ∧ t.p = some (chiSquareTail x t.dfNum))

theorem takesTail_univariate (ss errorSs dfNum dfDen : ℝ) :
    (univariate ss errorSs dfNum dfDen).TakesTail := by
  refine ⟨fun h => (saysNothing_univariate h).2.1, fun h => ?_⟩
  obtain ⟨hnum, hden, herror⟩ := degeneracy_univariate_eq_none_iff.mp h
  rw [univariate_eq hnum hden herror]
  exact ⟨hnum, hden, le_max_right _ _, nofun, fun _ => rfl, nofun⟩

theorem takesTail_multivariate (m : ErrorMatrices ℝ) (k n : ℕ) (dfNum : ℝ) (test : LambdaTest) :
    (multivariate m k n dfNum test).TakesTail := by
  refine ⟨fun h => (saysNothing_multivariate h).2.1, fun h => ?_⟩
  obtain ⟨hnum, hrestricted, hfull, hden⟩ := degeneracy_multivariate_eq_none_iff.mp h
  have hlambda := lambda_pos hfull hrestricted
  have hlarger : ∀ x : ℝ, 0 ≤ Scalar.larger x 0 := fun x => by
    rw [larger_eq]
    exact le_max_right _ _
  rw [multivariate]
  dsimp only
  rw [if_neg (not_le.mpr hnum), if_neg (not_le.mpr hrestricted), if_neg (not_le.mpr hfull),
    if_neg (not_le.mpr hden)]
  have hsome : ∀ l, some (Scalar.smaller (m.fullDet / m.restrictedDet) 1) = some l → 0 < l := by
    rintro _ ⟨⟩
    exact hlambda
  cases test with
  | rao => exact ⟨hnum, hden, hlarger _, hsome, fun _ => rfl, nofun⟩
  | bartlett =>
    refine ⟨hnum, hden, hlarger _, hsome, nofun, ?_⟩
    rintro _ ⟨⟩
    exact ⟨hlarger _, rfl⟩

/-! ## Degrees of freedom -/

theorem numeratorDf_eq (levels : List ℕ) :
    (numeratorDf levels : Checked c) = of c (numeratorDf levels) := by
  rw [numeratorDf, numeratorDf, ← product_map_of, List.map_map]
  rfl

end Significance

end SplitPlot
