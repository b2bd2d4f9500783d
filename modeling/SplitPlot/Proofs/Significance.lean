import Mathlib
import SplitPlot.Proofs.Special.Reflection
import SplitPlot.Significance

/-!
# What a test keeps and when it is carried out

A test that cannot be carried out keeps its sums of squares: the reason takes the place of the
statistic and of nothing else.  So the sums of squares of a test are those it was given, whether or
not it was carried out (`ss_univariate`, `ss_withinSubjects`, `ss_multivariate`).

A test has no probability exactly if it takes the tail of the F distribution where the evaluation of
the tail is given up (`p_univariate_eq_none_iff`, `p_multivariate_eq_none_iff`).  It is given up
wherever it would not end, and in arithmetic in which the flips repeat nowhere else
(`TailGivenUp.endlessTail`).  In exact arithmetic every test has a probability
(`exists_p_univariate`, `exists_p_multivariate`).

In exact arithmetic the test of one variable is carried out exactly if both degrees of freedom and
the error are positive, and then its statistic is zero exactly if the sum of squares is not positive
(`f_univariate_eq_zero_iff`).

The unit in which the sums of squares are taken is seen in the sums and in the mean squares only
(`Significance.rescale`).  The statistics, the probability and the reason why a test was not carried
out are the same in every unit (`univariate_mul`, `withinSubjects_mul`, `multivariate_mul`).
-/

namespace SplitPlot

namespace Significance

section Kept

variable {K : Type} [Scalar K] (ss errorSs dfNum dfDen : K) (m : ErrorMatrices K)

theorem ss_univariate : (univariate ss errorSs dfNum dfDen).ss = ss := by
  unfold univariate
  simp only
  split_ifs <;> rfl

theorem errorSs_univariate : (univariate ss errorSs dfNum dfDen).errorSs = errorSs := by
  unfold univariate
  simp only
  split_ifs <;> rfl

theorem dfNum_univariate : (univariate ss errorSs dfNum dfDen).dfNum = dfNum := by
  unfold univariate
  simp only
  split_ifs <;> rfl

theorem dfDen_univariate : (univariate ss errorSs dfNum dfDen).dfDen = dfDen := by
  unfold univariate
  simp only
  split_ifs <;> rfl

theorem ss_withinSubjects : (withinSubjects m dfNum dfDen).ss = m.restrictedDet - m.fullDet :=
  ss_univariate _ _ _ _

theorem ss_multivariate (k n : ℕ) (test : LambdaTest) :
    (multivariate m k n dfNum test).ss = m.restrictedDet - m.fullDet := by
  unfold multivariate
  simp only
  split_ifs
  iterate 4 rfl
  cases test <;> rfl

theorem errorSs_withinSubjects : (withinSubjects m dfNum dfDen).errorSs = m.fullDet :=
  errorSs_univariate _ _ _ _

theorem dfNum_withinSubjects : (withinSubjects m dfNum dfDen).dfNum = dfNum :=
  dfNum_univariate _ _ _ _

theorem errorSs_multivariate (k n : ℕ) (test : LambdaTest) :
    (multivariate m k n dfNum test).errorSs = m.fullDet := by
  unfold multivariate
  simp only
  split_ifs
  iterate 4 rfl
  cases test <;> rfl

theorem dfNum_multivariate (k n : ℕ) (test : LambdaTest) :
    (multivariate m k n dfNum test).dfNum = dfNum := by
  unfold multivariate
  simp only
  split_ifs
  iterate 4 rfl
  cases test <;> rfl

theorem dfDen_multivariate (k n : ℕ) (test : LambdaTest) :
    (multivariate m k n dfNum test).dfDen = raoDenominatorDf m.variableCount k n dfNum := by
  unfold multivariate
  simp only
  split_ifs
  iterate 4 rfl
  cases test <;> rfl

end Kept

/-! ## Tests that were not carried out -/

/-- A test that gives a reason why it was not carried out reports no statistic. -/
def SaysNothing {K : Type} [Scalar K] (t : Significance K) : Prop :=
  t.f = 0 ∧ t.p = some 1 ∧ t.wilksLambda = none ∧ t.chiSquare = none

section Reasons

variable {K : Type} [Scalar K]

theorem saysNothing_univariate {ss errorSs dfNum dfDen : K}
    (h : (univariate ss errorSs dfNum dfDen).degeneracy ≠ none) :
    (univariate ss errorSs dfNum dfDen).SaysNothing := by
  revert h
  unfold univariate
  simp only
  split_ifs
  iterate 3 exact fun _ => ⟨rfl, rfl, rfl, rfl⟩
  intro h
  exact absurd rfl h

theorem saysNothing_multivariate {m : ErrorMatrices K} {k n : ℕ} {dfNum : K} {test : LambdaTest}
    (h : (multivariate m k n dfNum test).degeneracy ≠ none) :
    (multivariate m k n dfNum test).SaysNothing := by
  revert h
  unfold multivariate
  simp only
  split_ifs
  iterate 4 exact fun _ => ⟨rfl, rfl, rfl, rfl⟩
  cases test <;> exact fun h => absurd rfl h

end Reasons

/-! ## Probabilities that are not there -/

/-- The test takes the tail of the F distribution at a finite positive statistic, and the arguments
of the incomplete beta function have the property there. -/
def TailAt {K : Type} [Scalar K] (property : K → K → K → Prop) (t : Significance K) : Prop :=
  t.degeneracy = none ∧ t.chiSquare = none ∧
    (Scalar.IsNumber t.f ∧ ¬ t.f ≤ 0 ∧ Scalar.IsFinite t.f) ∧
    property (t.dfDen / (t.dfDen + t.dfNum * t.f)) (Scalar.half t.dfDen) (Scalar.half t.dfNum)

/-- The test takes the tail where the incomplete beta function is flipped for ever. -/
def EndlessTail {K : Type} [Scalar K] (t : Significance K) : Prop := t.TailAt FlipsForever

/-- The test takes the tail where the incomplete beta function is given up. -/
def TailGivenUp {K : Type} [Scalar K] (t : Significance K) : Prop :=
  t.TailAt fun x a b => incompleteBeta x a b = none

section Probability

variable {K : Type} [Scalar K]

theorem TailAt.imp {P Q : K → K → K → Prop} {t : Significance K} (h : t.TailAt P)
    (himp : ∀ x a b, P x a b → Q x a b) : t.TailAt Q :=
  ⟨h.1, h.2.1, h.2.2.1, himp _ _ _ h.2.2.2⟩

/-- A tail whose evaluation does not end is given up. -/
theorem EndlessTail.tailGivenUp {t : Significance K} (h : t.EndlessTail) : t.TailGivenUp :=
  h.imp fun _ _ _ hforever => hforever.flipping?_eq_none betaFlips

/-- Where the flips repeat, no other tail is given up. -/
theorem TailGivenUp.endlessTail {t : Significance K} (h : t.TailGivenUp)
    (hrepeat : ComplementsRepeat K) : t.EndlessTail :=
  h.imp fun _ _ _ hnone => (flipping_eq_none_iff hrepeat).mp hnone

theorem fTail_eq_none_iff {dfNum dfDen : K} (hnum : ¬ dfNum ≤ 0) (hden : ¬ dfDen ≤ 0) (f : K) :
    fTail dfNum dfDen f = none ↔ (Scalar.IsNumber f ∧ ¬ f ≤ 0 ∧ Scalar.IsFinite f) ∧
      incompleteBeta (dfDen / (dfDen + dfNum * f)) (Scalar.half dfDen) (Scalar.half dfNum) =
        none := by
  by_cases hpos : Scalar.IsNumber f ∧ ¬ f ≤ 0
  · have hdomain : ¬ (¬ Scalar.IsNumber f ∨ f ≤ 0 ∨ dfNum ≤ 0 ∨ dfDen ≤ 0) := by
      simp only [not_or, not_not]
      exact ⟨hpos.1, hpos.2, hnum, hden⟩
    by_cases hfinite : Scalar.IsFinite f
    · rw [fTail, if_neg hdomain, if_neg (not_not.mpr hfinite),
        and_iff_right ⟨hpos.1, hpos.2, hfinite⟩]
    · rw [fTail, if_neg hdomain, if_pos hfinite]
      exact iff_of_false (Option.some_ne_none 0) fun h => hfinite h.1.2.2
  · have hdomain : ¬ Scalar.IsNumber f ∨ f ≤ 0 ∨ dfNum ≤ 0 ∨ dfDen ≤ 0 := by
      rw [not_and_or, not_not] at hpos
      exact hpos.imp_right .inl
    rw [fTail, if_pos hdomain]
    exact iff_of_false (Option.some_ne_none 1) fun h => hpos ⟨h.1.1, h.1.2.1⟩

/-- A test of one variable has no probability exactly if the evaluation of its tail is given up. -/
theorem p_univariate_eq_none_iff {ss errorSs dfNum dfDen : K} :
    (univariate ss errorSs dfNum dfDen).p = none ↔
      (univariate ss errorSs dfNum dfDen).TailGivenUp := by
  unfold univariate
  simp only
  split_ifs with hnum hden
  iterate 3 exact iff_of_false (Option.some_ne_none 1) fun h => Option.some_ne_none _ h.1
  exact (fTail_eq_none_iff hnum hden _).trans ⟨fun h => ⟨rfl, rfl, h⟩, fun h => h.2.2⟩

theorem p_multivariate_eq_none_iff {m : ErrorMatrices K} {k n : ℕ} {dfNum : K} {test : LambdaTest} :
    (multivariate m k n dfNum test).p = none ↔ (multivariate m k n dfNum test).TailGivenUp := by
  unfold multivariate
  simp only
  split_ifs with hnum hrestricted hfull hden
  iterate 4 exact iff_of_false (Option.some_ne_none 1) fun h => Option.some_ne_none _ h.1
  cases test with
  | rao => exact (fTail_eq_none_iff hnum hden _).trans ⟨fun h => ⟨rfl, rfl, h⟩, fun h => h.2.2⟩
  | bartlett => exact iff_of_false (Option.some_ne_none _) fun h => Option.some_ne_none _ h.2.1

/-- In exact arithmetic the tail has a value for every statistic. -/
theorem exists_fTail_eq (dfNum dfDen f : ℝ) : ∃ p, fTail dfNum dfDen f = some p := by
  rw [fTail]
  split_ifs with hdomain
  · exact ⟨1, rfl⟩
  · rw [not_or, not_or, not_or, not_le, not_le, not_le] at hdomain
    obtain ⟨-, -, hnum, hden⟩ := hdomain
    have hhalf : ∀ {y : ℝ}, 0 < y → 0 < Scalar.half y := fun hy =>
      div_pos hy (Nat.cast_pos.mpr Nat.two_pos)
    exact (exists_flipping?_succ betaSeries (hhalf hden) (hhalf hnum) _).imp fun _ h => h 1
  · exact ⟨0, rfl⟩

/-- In exact arithmetic every test of one variable has a probability. -/
theorem exists_p_univariate (ss errorSs dfNum dfDen : ℝ) :
    ∃ p, (univariate ss errorSs dfNum dfDen).p = some p := by
  unfold univariate
  simp only
  split_ifs
  iterate 3 exact ⟨1, rfl⟩
  exact exists_fTail_eq _ _ _

theorem exists_p_multivariate (m : ErrorMatrices ℝ) (k n : ℕ) (dfNum : ℝ) (test : LambdaTest) :
    ∃ p, (multivariate m k n dfNum test).p = some p := by
  unfold multivariate
  simp only
  split_ifs
  iterate 4 exact ⟨1, rfl⟩
  cases test with
  | rao => exact exists_fTail_eq _ _ _
  | bartlett => exact ⟨_, rfl⟩

end Probability

section Exact

variable {ss errorSs dfNum dfDen : ℝ}

/-- The test of one variable is carried out exactly if there are degrees of freedom and an error. -/
theorem degeneracy_univariate_eq_none_iff :
    (univariate ss errorSs dfNum dfDen).degeneracy = none ↔
      0 < dfNum ∧ 0 < dfDen ∧ 0 < errorSs := by
  have hratio : 0 < dfDen → ((untested ss errorSs dfNum dfDen).msError ≤ 0 ↔ errorSs ≤ 0) :=
    fun h => by
      show Scalar.ratio errorSs dfDen ≤ 0 ↔ _
      rw [Scalar.ratio, if_pos h, div_le_iff₀ h, zero_mul]
  unfold univariate
  simp only
  split_ifs with h1 h2 h3
  · exact ⟨nofun, fun h => absurd h.1 (not_lt.mpr h1)⟩
  · exact ⟨nofun, fun h => absurd h.2.1 (not_lt.mpr h2)⟩
  · exact ⟨nofun, fun h => absurd h.2.2 (not_lt.mpr ((hratio h.2.1).mp h3))⟩
  · have hden := not_le.mp h2
    exact ⟨fun _ => ⟨not_le.mp h1, hden, not_le.mp (mt (hratio hden).mpr h3)⟩, fun _ => rfl⟩

/-- The test of a source with factors of both kinds is carried out exactly if there are degrees of
freedom and both determinants are positive. -/
theorem degeneracy_multivariate_eq_none_iff {m : ErrorMatrices ℝ} {k n : ℕ} {test : LambdaTest} :
    (multivariate m k n dfNum test).degeneracy = none ↔
      0 < dfNum ∧ 0 < m.restrictedDet ∧ 0 < m.fullDet ∧
        0 < raoDenominatorDf m.variableCount k n dfNum := by
  unfold multivariate
  simp only
  split_ifs with h1 h2 h3 h4
  · exact ⟨nofun, fun h => absurd h.1 (not_lt.mpr h1)⟩
  · exact ⟨nofun, fun h => absurd h.2.1 (not_lt.mpr h2)⟩
  · exact ⟨nofun, fun h => absurd h.2.2.1 (not_lt.mpr h3)⟩
  · exact ⟨nofun, fun h => absurd h.2.2.2 (not_lt.mpr h4)⟩
  · refine ⟨fun _ => ⟨not_le.mp h1, not_le.mp h2, not_le.mp h3, not_le.mp h4⟩, fun _ => ?_⟩
    cases test <;> rfl

/-- The test of one variable when it is carried out. -/
theorem univariate_eq (hnum : 0 < dfNum) (hden : 0 < dfDen) (herror : 0 < errorSs) :
    univariate ss errorSs dfNum dfDen =
      { untested ss errorSs dfNum dfDen with
        f := max (ss / dfNum / (errorSs / dfDen)) 0
        p := fTail dfNum dfDen (max (ss / dfNum / (errorSs / dfDen)) 0) } := by
  have hms : (untested ss errorSs dfNum dfDen).ms = ss / dfNum := if_pos hnum
  have hmsError : (untested ss errorSs dfNum dfDen).msError = errorSs / dfDen := if_pos hden
  unfold univariate
  simp only
  rw [if_neg (not_le.mpr hnum), if_neg (not_le.mpr hden), hms, hmsError,
    if_neg (not_le.mpr (div_pos herror hden)), larger_eq]

/-- A test that was carried out gives zero exactly if its sum of squares is not positive. -/
theorem f_univariate_eq_zero_iff (h : (univariate ss errorSs dfNum dfDen).degeneracy = none) :
    (univariate ss errorSs dfNum dfDen).f = 0 ↔ ss ≤ 0 := by
  obtain ⟨hnum, hden, herror⟩ := degeneracy_univariate_eq_none_iff.mp h
  rw [univariate_eq hnum hden herror]
  show max _ _ = _ ↔ _
  rw [max_eq_right_iff, div_le_iff₀ (div_pos herror hden), zero_mul, div_le_iff₀ hnum, zero_mul]

/-- A statistic of zero has probability one. -/
theorem fTail_zero (dfNum dfDen : ℝ) : fTail dfNum dfDen 0 = some 1 :=
  if_pos (.inr (.inl le_rfl))

/-- The statistic and the probability of a sum of squares that is not negative, whether or not there
is an error. -/
theorem f_univariate (hnum : 0 < dfNum) (hden : 0 < dfDen) (hss : 0 ≤ ss) :
    (univariate ss errorSs dfNum dfDen).f =
        (if 0 < errorSs / dfDen then ss / dfNum / (errorSs / dfDen) else 0) ∧
      (univariate ss errorSs dfNum dfDen).p =
        fTail dfNum dfDen (univariate ss errorSs dfNum dfDen).f := by
  have hpos : 0 < errorSs / dfDen ↔ 0 < errorSs := div_pos_iff_of_pos_right hden
  by_cases herror : 0 < errorSs
  · have hf : 0 ≤ ss / dfNum / (errorSs / dfDen) :=
      div_nonneg (div_nonneg hss hnum.le) (hpos.mpr herror).le
    rw [univariate_eq hnum hden herror, if_pos (hpos.mpr herror)]
    exact ⟨max_eq_left hf, rfl⟩
  · have hmsError : (untested ss errorSs dfNum dfDen).msError ≤ 0 := by
      show Scalar.ratio errorSs dfDen ≤ 0
      rw [Scalar.ratio, if_pos hden]
      exact not_lt.mp (mt hpos.mp herror)
    rw [if_neg (mt hpos.mp herror)]
    unfold univariate
    simp only
    rw [if_neg (not_le.mpr hnum), if_neg (not_le.mpr hden), if_pos hmsError]
    exact ⟨rfl, (fTail_zero dfNum dfDen).symm⟩

end Exact

/-! ## Another unit -/

/-- The test of sums of squares that are taken in another unit: sums and mean squares are multiplied
by a number, and nothing else changes. -/
noncomputable def rescale (c : ℝ) (t : Significance ℝ) : Significance ℝ :=
  { t with ss := c * t.ss, errorSs := c * t.errorSs, ms := c * t.ms, msError := c * t.msError }

section Rescaled

variable {c : ℝ}

theorem rescale_one (t : Significance ℝ) : t.rescale 1 = t := by
  simp only [rescale, one_mul]

theorem ratio_mul (c x y : ℝ) : Scalar.ratio (c * x) y = c * Scalar.ratio x y := by
  rw [Scalar.ratio, Scalar.ratio, mul_ite, mul_zero, mul_div_assoc]

theorem untested_mul (c ss errorSs dfNum dfDen : ℝ) :
    untested (c * ss) (c * errorSs) dfNum dfDen = (untested ss errorSs dfNum dfDen).rescale c := by
  simp only [untested, rescale, ratio_mul]

variable (hc : 0 < c)

include hc

theorem mul_nonpos_iff_of_pos (x : ℝ) : c * x ≤ 0 ↔ x ≤ 0 := by
  rw [← mul_zero c, mul_le_mul_iff_right₀ hc, mul_zero]

/-- The statistic of a test does not depend on the unit. -/
theorem univariate_mul (ss errorSs dfNum dfDen : ℝ) :
    univariate (c * ss) (c * errorSs) dfNum dfDen =
      (univariate ss errorSs dfNum dfDen).rescale c := by
  have herror : ((untested ss errorSs dfNum dfDen).rescale c).msError ≤ 0 ↔
      (untested ss errorSs dfNum dfDen).msError ≤ 0 := mul_nonpos_iff_of_pos hc _
  have hf : ((untested ss errorSs dfNum dfDen).rescale c).ms /
      ((untested ss errorSs dfNum dfDen).rescale c).msError =
        (untested ss errorSs dfNum dfDen).ms / (untested ss errorSs dfNum dfDen).msError :=
    mul_div_mul_left _ _ hc.ne'
  unfold univariate
  simp only [untested_mul, herror, hf]
  split_ifs <;> rfl

variable {m m' : ErrorMatrices ℝ} (hfull : m'.fullDet = c * m.fullDet)
  (hrestricted : m'.restrictedDet = c * m.restrictedDet)

include hfull hrestricted

theorem withinSubjects_mul (dfNum dfDen : ℝ) :
    withinSubjects m' dfNum dfDen = (withinSubjects m dfNum dfDen).rescale c := by
  rw [withinSubjects, withinSubjects, ← univariate_mul hc, hfull, hrestricted, mul_sub]

theorem multivariate_mul (hcount : m'.variableCount = m.variableCount) (k n : ℕ) (dfNum : ℝ)
    (test : LambdaTest) :
    multivariate m' k n dfNum test = (multivariate m k n dfNum test).rescale c := by
  have hlambda : m'.fullDet / m'.restrictedDet = m.fullDet / m.restrictedDet := by
    rw [hfull, hrestricted, mul_div_mul_left _ _ hc.ne']
  have huntested : ∀ dfDen, untested (m'.restrictedDet - m'.fullDet) m'.fullDet dfNum dfDen =
      (untested (m.restrictedDet - m.fullDet) m.fullDet dfNum dfDen).rescale c := fun dfDen => by
    rw [← untested_mul, hfull, hrestricted, mul_sub]
  have hfullSign : m'.fullDet ≤ 0 ↔ m.fullDet ≤ 0 := by
    rw [hfull, mul_nonpos_iff_of_pos hc]
  have hrestrictedSign : m'.restrictedDet ≤ 0 ↔ m.restrictedDet ≤ 0 := by
    rw [hrestricted, mul_nonpos_iff_of_pos hc]
  unfold multivariate
  simp only [hcount, huntested, hlambda, hfullSign, hrestrictedSign]
  split_ifs
  iterate 4 rfl
  cases test <;> rfl

end Rescaled

end Significance

end SplitPlot
