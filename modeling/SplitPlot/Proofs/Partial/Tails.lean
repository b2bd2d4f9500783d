import Mathlib
import SplitPlot.Proofs.Partial.Numbers
import SplitPlot.Proofs.Special.Convergents
import SplitPlot.Proofs.Special.Reflection
import SplitPlot.Tail

/-!
# Tail probabilities that are defined

The tails of the two distributions are defined for every statistic and all degrees of freedom
(`fTail_of`, `chiSquareTail_of`).  They test their arguments, so what is left are positive ones, and
on these no divisor of the series and of the fractions below is zero:

* the partial fraction for the logarithm of the gamma function has its poles at negative whole
  numbers, and it is positive above the first of them (`lanczosSum_pos`);
* the ratios of a continued fraction are kept away from zero by `FractionState.guard`;
* the denominators of the partial numerators are products of positive numbers.
-/

namespace SplitPlot

variable {c : Comparison}

open Checked

/-! ## The logarithm of the gamma function -/

section Gamma

variable {x : ℝ}

theorem lanczosSum_of (hx : -1 < x) : lanczosSum (of c x) = of c (lanczosSum x) := by
  have hfold : ∀ (l : List ℝ) (k : ℕ) (acc : ℝ),
      ((l.map (of c)).zipIdx k).foldl
          (fun sum e => sum + e.1 / (of c x + ((e.2 + 1 : ℕ) : Checked c))) (of c acc) =
        of c ((l.zipIdx k).foldl (fun sum e => sum + e.1 / (x + ((e.2 + 1 : ℕ) : ℝ))) acc) := by
    intro l
    induction l with
    | nil => exact fun _ _ => rfl
    | cons y l ih =>
      intro k acc
      have hpole : x + ((k + 1 : ℕ) : ℝ) ≠ 0 := by
        rw [Nat.cast_add, Nat.cast_one]
        have hk : (0 : ℝ) ≤ k := Nat.cast_nonneg k
        linarith
      rw [List.map_cons, List.zipIdx_cons, List.zipIdx_cons, List.foldl_cons, List.foldl_cons,
        natCast_eq, of_add, of_div hpole, of_add]
      exact ih _ _
  exact hfold lanczosTail 0 lanczosHead

/-- Above its first pole the partial fraction is positive: over the common denominator its numerator
is a polynomial with positive coefficients in the distance from that pole. -/
theorem lanczosSum_pos (hx : -1 < x) : 0 < lanczosSum x := by
  obtain ⟨z, rfl⟩ : ∃ z, x = z - 1 := ⟨x + 1, by ring⟩
  have hz : 0 < z := by linarith
  have hsum : lanczosSum (z - 1) = 0.99999999999980993 + 676.5203681218851 / z
      + -1259.1392167224028 / (z + 1) + 771.32342877765313 / (z + 2)
      + -176.61502916214059 / (z + 3) + 12.507343278686905 / (z + 4)
      + -0.13857109526572012 / (z + 5) + 9.9843695780195716e-6 / (z + 6)
      + 1.5056327351493116e-7 / (z + 7) := by
    have hpole : ∀ k : ℕ, z - 1 + ((k + 1 : ℕ) : ℝ) = z + k := by
      intro k
      rw [Nat.cast_add, Nat.cast_one]
      ring
    simp only [lanczosSum, lanczosTail, lanczosHead, List.zipIdx_cons, List.zipIdx_nil,
      List.foldl_cons, List.foldl_nil, hpole]
    norm_num
  have hnumerator : lanczosSum (z - 1) *
      (z * (z + 1) * (z + 2) * (z + 3) * (z + 4) * (z + 5) * (z + 6) * (z + 7)) =
        0.99999999999980993 *
            (z * (z + 1) * (z + 2) * (z + 3) * (z + 4) * (z + 5) * (z + 6) * (z + 7))
          + 676.5203681218851 *
            ((z + 1) * (z + 2) * (z + 3) * (z + 4) * (z + 5) * (z + 6) * (z + 7))
          + -1259.1392167224028 *
            (z * (z + 2) * (z + 3) * (z + 4) * (z + 5) * (z + 6) * (z + 7))
          + 771.32342877765313 * (z * (z + 1) * (z + 3) * (z + 4) * (z + 5) * (z + 6) * (z + 7))
          + -176.61502916214059 * (z * (z + 1) * (z + 2) * (z + 4) * (z + 5) * (z + 6) * (z + 7))
          + 12.507343278686905 * (z * (z + 1) * (z + 2) * (z + 3) * (z + 5) * (z + 6) * (z + 7))
          + -0.13857109526572012 * (z * (z + 1) * (z + 2) * (z + 3) * (z + 4) * (z + 6) * (z + 7))
          + 9.9843695780195716e-6 * (z * (z + 1) * (z + 2) * (z + 3) * (z + 4) * (z + 5) * (z + 7))
          + 1.5056327351493116e-7 *
            (z * (z + 1) * (z + 2) * (z + 3) * (z + 4) * (z + 5) * (z + 6)) := by
    rw [hsum]
    field_simp
  refine pos_of_mul_pos_left (b := z * (z + 1) * (z + 2) * (z + 3) * (z + 4) * (z + 5) * (z + 6) *
    (z + 7)) ?_ (by positivity)
  rw [hnumerator]
  ring_nf
  positivity

theorem lanczosLogGamma_of (hx : 0 < x) : lanczosLogGamma (of c x) = of c (lanczosLogGamma x) := by
  have hpole : -1 < x - 1 := by linarith
  have hcircle : (0 : ℝ) < ((2 : ℕ) : ℝ) * Scalar.pi :=
    mul_pos (Nat.cast_pos.mpr Nat.two_pos) Real.pi_pos
  have hshift : 0 < x - 1 + ((7 : ℕ) : ℝ) + 0.5 := by
    norm_num
    linarith
  simp only [lanczosLogGamma, one_eq, natCast_eq, ofScientific_eq, pi_eq, of_add, of_sub, of_mul]
  rw [of_log hcircle, of_log hshift, lanczosSum_of hpole, of_log (lanczosSum_pos hpole)]
  simp only [of_add, of_sub, of_mul]

/-- The sine that the reflection divides by belongs to an angle between zero and a half turn. -/
theorem logGamma_of (x : ℝ) : logGamma (of c x) = of c (logGamma x) := by
  simp only [logGamma, zero_eq, one_eq, ofScientific_eq, of_le_iff, of_lt_iff, infinity_eq, pi_eq,
    of_mul, of_sin, of_sub]
  by_cases hx : x ≤ 0
  · rw [if_pos hx, if_pos hx]
  · rw [if_neg hx, if_neg hx]
    rw [not_le] at hx
    by_cases hhalf : x < 0.5
    · have hone : x < 1 := hhalf.trans (by norm_num)
      have hpi : (0 : ℝ) < Scalar.pi := Real.pi_pos
      have hsin : 0 < Scalar.sin (Scalar.pi * x) :=
        Real.sin_pos_of_pos_of_lt_pi (mul_pos hpi hx) (mul_lt_of_lt_one_right hpi hone)
      rw [if_pos hhalf, if_pos hhalf, of_div hsin.ne', of_log (div_pos hpi hsin),
        lanczosLogGamma_of (sub_pos.mpr hone), of_sub]
    · rw [if_neg hhalf, if_neg hhalf, lanczosLogGamma_of hx]

end Gamma

/-! ## Continued fractions -/

namespace FractionState

/-- The state with each number taken to another one. -/
def map {K L : Type} (f : K → L) (s : FractionState K) : FractionState L :=
  ⟨f s.c, f s.d, f s.value⟩

variable (tiny x : ℝ)

theorem guard_of : guard (of c tiny) (of c x) = of c (guard tiny x) := by
  rw [guard, guard, abs_of]
  exact ite_of of_lt_iff _ _

theorem step_map_of {tiny : ℝ} (htiny : 0 < tiny) (numerator : ℝ) {s : FractionState ℝ}
    (hs : s.c ≠ 0) : (s.map (of c)).step (of c tiny) (of c numerator) =
      (s.step tiny numerator).map (of c) := by
  simp only [step, map, one_eq, of_mul, of_add, guard_of, of_div hs,
    of_div (guard_ne_zero _ htiny)]

theorem step_c_ne_zero {tiny : ℝ} (htiny : 0 < tiny) (numerator : ℝ) (s : FractionState ℝ) :
    (s.step tiny numerator).c ≠ 0 := guard_ne_zero _ htiny

end FractionState

/-! ## The incomplete beta function -/

section Beta

variable {x a b : ℝ}

theorem betaEven_of (ha : 0 < a) (m : ℕ) :
    betaEven (of c x) (of c a) (of c b) m = of c (betaEven x a b m) := by
  rw [betaEven, betaEven]
  by_cases hm : m = 0
  · rw [if_pos hm, if_pos hm, one_eq]
  · have hpos : (1 : ℝ) ≤ m := Nat.one_le_cast.mpr (Nat.one_le_iff_ne_zero.mpr hm)
    have hfirst : 0 < a + ((2 : ℕ) : ℝ) * m - 1 := by
      push_cast
      linarith
    have hsecond : 0 < a + ((2 : ℕ) : ℝ) * m := by linarith
    rw [if_neg hm, if_neg hm]
    simp only [natCast_eq, one_eq, of_sub, of_add, of_mul]
    exact of_div (mul_pos hfirst hsecond).ne'

theorem betaOdd_of (ha : 0 < a) (m : ℕ) :
    betaOdd (of c x) (of c a) (of c b) m = of c (betaOdd x a b m) := by
  have hfirst : 0 < a + ((2 : ℕ) : ℝ) * m :=
    add_pos_of_pos_of_nonneg ha (mul_nonneg (Nat.cast_nonneg _) (Nat.cast_nonneg _))
  have hsecond : 0 < a + ((2 : ℕ) : ℝ) * m + 1 := by linarith
  simp only [betaOdd, natCast_eq, one_eq, of_add, of_mul, of_neg]
  exact of_div (mul_pos hfirst hsecond).ne'

theorem betaPass_map_of (ha : 0 < a) (m : ℕ) {s : FractionState ℝ} (hs : s.c ≠ 0) :
    betaPass (of c x) (of c a) (of c b) m (s.map (of c)) = (betaPass x a b m s).map (of c) := by
  have htiny : (betaTiny : Checked c) = of c betaTiny := rfl
  rw [betaPass, betaPass, betaEven_of ha, betaOdd_of ha, htiny,
    FractionState.step_map_of betaTiny_pos _ hs,
    FractionState.step_map_of betaTiny_pos _ (FractionState.step_c_ne_zero betaTiny_pos _ _)]

theorem betaFraction_map_of (ha : 0 < a) : ∀ (n m : ℕ) {s : FractionState ℝ}, s.c ≠ 0 →
    betaFraction (of c x) (of c a) (of c b) n m (s.map (of c)) =
      (betaFraction x a b n m s).map (of c)
  | 0, _, _, _ => rfl
  | n + 1, m, s, hs => by
    have hnext : (betaPass x a b m s).c ≠ 0 := FractionState.step_c_ne_zero betaTiny_pos _ _
    have hchange :
        ((betaPass x a b m s).map (of c)).change = of c (betaPass x a b m s).change := rfl
    have htolerance : (betaTolerance : Checked c) = of c betaTolerance := rfl
    rw [betaFraction, betaFraction]
    simp only [betaPass_map_of ha m hs, hchange, htolerance, one_eq, of_sub, abs_of, of_lt_iff]
    split
    · rfl
    · exact betaFraction_map_of ha n (m + 1) hnext

theorem betaFront_of (hx : 0 < x) (hx1 : x < 1) (ha : 0 < a) :
    betaFront (of c x) (of c a) (of c b) = of c (betaFront x a b) := by
  simp only [betaFront, logGamma_of, of_add, of_sub, one_eq, of_log hx, of_log (sub_pos.mpr hx1),
    of_mul, of_exp, of_div ha.ne']

theorem betaSeries_of (hx : 0 < x) (hx1 : x < 1) (ha : 0 < a) :
    betaSeries (of c x) (of c a) (of c b) = of c (betaSeries x a b) := by
  have hfraction := betaFraction_map_of (c := c) (x := x) (b := b) ha betaPasses 0
    (s := .start) one_ne_zero
  have hstart : (FractionState.start : FractionState (Checked c)) =
      (FractionState.start : FractionState ℝ).map (of c) := rfl
  rw [betaSeries, betaSeries, betaFront_of hx hx1 ha, hstart, hfraction]
  rfl

/-- The symmetry exchanges the two parameters, both of which are positive. -/
theorem incompleteBeta?_of (flips : ℕ) {x a b : ℝ} (ha : 0 < a) (hb : 0 < b) :
    incompleteBeta? flips (of c x) (of c a) (of c b) =
      (incompleteBeta? flips x a b).map (of c) := by
  have hthreshold : betaThreshold (of c a) (of c b) = of c (betaThreshold a b) :=
    of_div (by positivity)
  induction flips generalizing x a b with
  | zero =>
    rw [incompleteBeta?, incompleteBeta?, flipping?, flipping?, hthreshold]
    simp only [zero_eq, one_eq, of_le_iff, of_lt_iff]
    split_ifs with h0 h1 h2
    · rfl
    · rfl
    · rfl
    · exact congrArg some (betaSeries_of (not_le.mp h0) (not_le.mp h1) ha)
  | succ flips ih =>
    have hflipped := ih (x := 1 - x) hb ha (of_div (by positivity))
    rw [incompleteBeta?, incompleteBeta?] at hflipped
    rw [incompleteBeta?, incompleteBeta?, flipping?, flipping?, hthreshold]
    simp only [zero_eq, one_eq, of_le_iff, of_lt_iff, of_sub, hflipped]
    split_ifs with h0 h1 h2
    · rfl
    · rfl
    · rw [Option.map_map, Option.map_map]
      rfl
    · exact congrArg some (betaSeries_of (not_le.mp h0) (not_le.mp h1) ha)

theorem incompleteBeta_of (ha : 0 < a) (hb : 0 < b) :
    incompleteBeta (of c x) (of c a) (of c b) = (incompleteBeta x a b).map (of c) :=
  incompleteBeta?_of betaFlips ha hb

end Beta

/-! ## The incomplete gamma function -/

section IncompleteGamma

theorem gammaTiny_pos : (0 : ℝ) < gammaTiny := by
  have hrational : (0 : ℚ≥0) < 1e-300 := by decide +kernel
  have hreal := NNRat.cast_pos (K := ℝ) |>.mpr hrational
  rwa [NNRat.cast_ofScientific] at hreal

theorem gammaSeries_of (x : ℝ) : ∀ (n : ℕ) {p : ℝ} (term sum : ℝ), 0 < p →
    gammaSeries (of c x) n (of c p) (of c term) (of c sum) = of c (gammaSeries x n p term sum)
  | 0, _, _, _, _ => rfl
  | n + 1, p, term, sum, hp => by
    have hnext : 0 < p + 1 := by linarith
    have htolerance : (gammaTolerance : Checked c) = of c gammaTolerance := rfl
    simp only [gammaSeries, one_eq, of_add, of_div hnext.ne', of_mul, abs_of, htolerance, of_lt_iff]
    split
    · rfl
    · exact gammaSeries_of x n _ _ hnext

theorem gammaFraction_of (a : ℝ) : ∀ (n i : ℕ) (b : ℝ) {s : FractionState ℝ}, s.c ≠ 0 →
    gammaFraction (of c a) n i (of c b) (s.map (of c)) = of c (gammaFraction a n i b s)
  | 0, _, _, _, _ => rfl
  | n + 1, i, b, s, hs => by
    have htiny : (gammaTiny : Checked c) = of c gammaTiny := rfl
    have htolerance : (gammaTolerance : Checked c) = of c gammaTolerance := rfl
    have hguard := fun y => FractionState.guard_ne_zero y gammaTiny_pos
    let numerator : ℝ := -(i : ℝ) * ((i : ℝ) - a)
    let d := 1 / FractionState.guard gammaTiny (numerator * s.d + (b + ((2 : ℕ) : ℝ)))
    let e := FractionState.guard gammaTiny (b + ((2 : ℕ) : ℝ) + numerator / s.c)
    have hrest := gammaFraction_of a n (i + 1) (b + ((2 : ℕ) : ℝ)) (s := ⟨e, d, s.value * (d * e)⟩)
      (hguard _)
    simp only [gammaFraction, FractionState.map, FractionState.change, natCast_eq, one_eq, of_neg,
      of_sub, of_mul, of_add, of_div hs, htiny, htolerance, FractionState.guard_of,
      of_div (hguard _), abs_of]
    exact (congrArg (ite _ _) hrest).trans (ite_of of_lt_iff _ _)

/-- Both the series and the fraction are only used for positive arguments, the fraction above
`a + 1`, where its first denominator is at least two. -/
theorem upperGamma_of (a x : ℝ) : upperGamma (of c a) (of c x) = of c (upperGamma a x) := by
  rw [upperGamma, upperGamma]
  simp only [zero_eq, one_eq, of_le_iff, of_lt_iff, of_add]
  by_cases hdomain : x ≤ 0 ∨ a ≤ 0
  · rw [if_pos hdomain, if_pos hdomain]
  · rw [if_neg hdomain, if_neg hdomain]
    rw [not_or, not_le, not_le] at hdomain
    obtain ⟨hx, ha⟩ := hdomain
    have hfront : Scalar.exp (gammaLogFront (of c a) (of c x)) =
        of c (Scalar.exp (gammaLogFront a x)) := by
      rw [gammaLogFront, gammaLogFront, of_log hx, logGamma_of]
      rfl
    rw [hfront]
    by_cases hside : x < a + 1
    · rw [if_pos hside, if_pos hside, of_div ha.ne', gammaSeries_of x _ _ _ ha, of_mul, of_sub,
        clamp_of]
    · have hb : 0 < x + 1 - a := by linarith
      have htiny : (gammaTiny : Checked c) = of c gammaTiny := rfl
      have hfraction := gammaFraction_of (c := c) a (gammaTerms - 1) 1 (x + 1 - a)
        (s := ⟨1 / gammaTiny, 1 / (x + 1 - a), 1 / (x + 1 - a)⟩) (one_div_ne_zero gammaTiny_pos.ne')
      rw [FractionState.map] at hfraction
      rw [if_neg hside, if_neg hside, htiny, of_sub, of_div gammaTiny_pos.ne', of_div hb.ne',
        hfraction, of_mul, clamp_of]

end IncompleteGamma

/-! ## The tails -/

/-- Where the incomplete beta function is asked for, all degrees of freedom are positive. -/
theorem fTail_of (dfNum dfDen f : ℝ) :
    fTail (of c dfNum) (of c dfDen) (of c f) = (fTail dfNum dfDen f).map (of c) := by
  rw [fTail, fTail]
  simp only [isNumber_of, isNumber, not_true_eq_false, false_or, isFinite_of, isFinite, if_false,
    zero_eq, one_eq, of_le_iff, of_mul, of_add, half_of]
  by_cases hdomain : f ≤ 0 ∨ dfNum ≤ 0 ∨ dfDen ≤ 0
  · rw [if_pos hdomain, if_pos hdomain, Option.map_some]
  · rw [if_neg hdomain, if_neg hdomain]
    rw [not_or, not_or, not_le, not_le, not_le] at hdomain
    obtain ⟨hf, hnum, hden⟩ := hdomain
    have hproduct : 0 < dfNum * f := mul_pos hnum hf
    have hsum : 0 < dfDen + dfNum * f := add_pos hden hproduct
    have hhalf : ∀ {y : ℝ}, 0 < y → 0 < Scalar.half y := fun hy =>
      div_pos hy (Nat.cast_pos.mpr Nat.two_pos)
    rw [of_div hsum.ne']
    exact incompleteBeta_of (hhalf hden) (hhalf hnum)

theorem chiSquareTail_of (x df : ℝ) :
    chiSquareTail (of c x) (of c df) = of c (chiSquareTail x df) := by
  rw [chiSquareTail, chiSquareTail]
  simp only [isNumber_of, isNumber, not_true_eq_false, or_false, zero_eq, one_eq, of_le_iff,
    half_of, upperGamma_of]
  exact ite_of Iff.rfl _ _

end SplitPlot
