import Mathlib
import SplitPlot.Proofs.Special.Convergents
import SplitPlot.Proofs.Special.Reflection

/-!
# The continued fraction of the incomplete beta function

Below its threshold the incomplete beta function is a front factor times `1 / (1 + a₂ / (1 + ⋯))`.
The loop that evaluates the fraction takes two partial numerators in a pass, so after `m` passes it
has taken the first `2 * m`, and unless it replaced a ratio it holds the convergent with that number
(`incompleteBeta_eq_convergent`).

## Passes

`betaStates` is the state after any number of passes, with no test for the end.  The loop itself
makes passes until one of them changes the value by little, or until it has made all that it is
allowed.  `EndsAfter` says that of the number of passes, and what the loop returns is the state
after that number (`exists_betaFraction_eq`).

## The rests of the fraction

Whether the convergent is also the value of the fraction that is cut off there and worked out from
the back depends on the rests of the fraction: none may be zero.  The partial numerators with even
numbers are negative, and those with odd numbers `2 j + 1` are so too once `j` exceeds `b`.  Up to
the threshold the rest behind an odd numerator stays above `i / (a + 2 i)`, and the rest behind an
even one above `(a + b + i) x / (a + 2 i + 1)` (`restFraction_bounds`).  Each of the two bounds is
what the step backward to the other needs.
-/

namespace SplitPlot

open GenContFract

/-! ## The partial numerators -/

/-- The partial numerators `a₁`, `a₂` and so on of the continued fraction. -/
noncomputable def betaNumerator (x a b : ℝ) (n : ℕ) : ℝ :=
  let j : ℝ := ((n - 1) / 2 : ℕ)
  if n = 1 then 1
  else if Odd n then j * (b - j) * x / ((a + 2 * j - 1) * (a + 2 * j))
  else -((a + j) * (a + b + j) * x) / ((a + 2 * j) * (a + 2 * j + 1))

variable (x a b : ℝ)

theorem betaNumerator_one : betaNumerator x a b 1 = 1 := by rw [betaNumerator, if_pos rfl]

theorem betaNumerator_odd {j : ℕ} (hj : 0 < j) : betaNumerator x a b (2 * j + 1) =
    j * (b - j) * x / ((a + 2 * j - 1) * (a + 2 * j)) := by
  have hne : 2 * j + 1 ≠ 1 := by omega
  have hhalf : (2 * j + 1 - 1) / 2 = j := by omega
  rw [betaNumerator, if_neg hne, if_pos ⟨j, rfl⟩, hhalf]

theorem betaNumerator_even (j : ℕ) : betaNumerator x a b (2 * j + 2) =
    -((a + j) * (a + b + j) * x) / ((a + 2 * j) * (a + 2 * j + 1)) := by
  have hne : 2 * j + 2 ≠ 1 := by omega
  have hodd : ¬ Odd (2 * j + 2) := Nat.not_odd_iff_even.mpr ⟨j + 1, by ring⟩
  have hhalf : (2 * j + 2 - 1) / 2 = j := by omega
  rw [betaNumerator, if_neg hne, if_neg hodd, hhalf]

/-- The even step of a pass takes the partial numerator with an odd number. -/
theorem betaEven_eq (m : ℕ) : betaEven x a b m = betaNumerator x a b (2 * m + 1) := by
  rw [betaEven]
  split
  · next h => rw [h, Nat.mul_zero, Nat.zero_add, betaNumerator_one]
  · next h =>
    rw [betaNumerator_odd x a b (Nat.pos_of_ne_zero h)]
    push_cast
    rfl

/-- The odd step of a pass takes the partial numerator with the next number. -/
theorem betaOdd_eq (m : ℕ) : betaOdd x a b m = betaNumerator x a b (2 * m + 2) := by
  rw [betaOdd, betaNumerator_even]
  push_cast
  rfl

/-! ## Passes -/

section Passes

variable {K : Type} [Scalar K]

/-- The state after a number of passes. -/
def betaStates (x a b : K) : ℕ → FractionState K
  | 0 => .start
  | m + 1 => betaPass x a b m (betaStates x a b m)

/-- No ratio is replaced in the first `m` passes. -/
def Undisturbed (x a b : K) (m : ℕ) : Prop :=
  ∀ k < m, (betaStates x a b k).Keeps betaTiny (betaEven x a b k) ∧
    ((betaStates x a b k).step betaTiny (betaEven x a b k)).Keeps betaTiny (betaOdd x a b k)

/-- The last step changed the value by little. -/
def FractionState.Settled (s : FractionState K) : Prop := Scalar.abs (s.change - 1) < betaTolerance

/-- The loop makes `m` passes: it ends with the first after which the state is settled, and after
`betaPasses` at the latest. -/
structure EndsAfter (x a b : K) (m : ℕ) : Prop where
  /-- At least one pass is made. -/
  pos : 0 < m
  /-- No more passes are made than are allowed. -/
  le : m ≤ betaPasses
  /-- After no earlier pass was the state settled. -/
  unsettled : ∀ k, 0 < k → k < m → ¬ (betaStates x a b k).Settled
  /-- A loop that ends early ends with a settled state. -/
  settled : m < betaPasses → (betaStates x a b m).Settled

/-- A loop that goes on after `m` passes, and is allowed `n` more, ends with the first after which
the state is settled. -/
theorem exists_betaFraction_eq (x a b : K) (n m : ℕ) : ∃ k, m ≤ k ∧ k ≤ m + n ∧ (0 < n → m < k) ∧
    (∀ j, m < j → j < k → ¬ (betaStates x a b j).Settled) ∧
    (k < m + n → (betaStates x a b k).Settled) ∧
    betaFraction x a b n m (betaStates x a b m) = betaStates x a b k := by
  induction n generalizing m with
  | zero => exact ⟨m, le_rfl, le_rfl, fun h => absurd h (lt_irrefl 0),
      fun j hj hjm => absurd hjm hj.asymm, fun h => absurd h (lt_irrefl m), rfl⟩
  | succ n ih =>
    have hnext : betaPass x a b m (betaStates x a b m) = betaStates x a b (m + 1) := rfl
    by_cases hsettled : (betaStates x a b (m + 1)).Settled
    · refine ⟨m + 1, m.le_succ, by omega, fun _ => m.lt_succ_self, fun j hj hjm => by omega,
        fun _ => hsettled, ?_⟩
      rw [betaFraction, hnext]
      exact if_pos hsettled
    · obtain ⟨k, hle, hbound, -, hbefore, hend, heq⟩ := ih (m + 1)
      refine ⟨k, by omega, by omega, fun _ => hle, fun j hj hjk => ?_, fun hk => hend (by omega),
        ?_⟩
      · rcases eq_or_lt_of_le (show m + 1 ≤ j from hj) with rfl | hlt
        · exact hsettled
        · exact hbefore j hlt hjk
      · rw [betaFraction, hnext, ← heq]
        exact if_neg hsettled

/-- What the loop returns is the state after the passes it makes. -/
theorem exists_endsAfter (x a b : K) : ∃ m, EndsAfter x a b m ∧
    betaFraction x a b betaPasses 0 .start = betaStates x a b m := by
  obtain ⟨m, -, hle, hpos, hbefore, hend, heq⟩ := exists_betaFraction_eq x a b betaPasses 0
  rw [Nat.zero_add] at hle hend
  exact ⟨m, ⟨hpos (by decide), hle, hbefore, hend⟩, heq⟩

end Passes

/-- Two partial numerators are taken in a pass. -/
theorem betaStates_eq_after (m : ℕ) :
    betaStates x a b m = FractionState.after betaTiny (betaNumerator x a b) (2 * m) := by
  induction m with
  | zero => rfl
  | succ m ih =>
    rw [betaStates, betaPass, ih, betaEven_eq, betaOdd_eq]
    rfl

variable {x a b}

/-- Passes in which nothing is replaced lead to the convergent. -/
theorem Undisturbed.follows {m : ℕ} (h : Undisturbed x a b m) :
    (betaStates x a b m).Follows (betaNumerator x a b) (2 * m) := by
  rw [betaStates_eq_after]
  refine FractionState.follows_after betaTiny_pos fun k hk => ?_
  -- the numerator of either step of the pass
  obtain ⟨heven, hodd⟩ := h (k / 2) (by omega)
  rw [betaStates_eq_after, betaEven_eq] at heven hodd
  rw [betaOdd_eq] at hodd
  rcases Nat.even_or_odd' k with ⟨i, rfl | rfl⟩
  · rw [show 2 * i / 2 = i by omega] at heven
    exact heven
  · rw [show (2 * i + 1) / 2 = i by omega] at hodd
    exact hodd

/-! ## The rests of the fraction -/

section Rests

variable (ha : 0 < a) (hb : 0 < b) (hx : 0 < x) (hle : x ≤ betaThreshold a b)

include ha hb hle in
theorem lt_one_of_le_betaThreshold : x < 1 := by
  have hadd := betaThreshold_add ha hb
  have hpos := betaThreshold_pos hb ha
  linarith

include ha hb hle in
/-- Up to the threshold the bound of the rests behind the even numerators is below one. -/
theorem mul_div_lt_one (i : ℕ) : (a + b + i) * x / (a + 2 * i + 1) < 1 := by
  have hi : (0 : ℝ) ≤ i := Nat.cast_nonneg i
  rw [div_lt_one (by positivity)]
  have hsum : (0 : ℝ) < a + b + i := by positivity
  have hthreshold : betaThreshold a b = (a + 1) / (a + b + 2) := by
    rw [betaThreshold, Nat.cast_ofNat]
  have hx : (a + b + i) * x ≤ (a + b + i) * ((a + 1) / (a + b + 2)) :=
    mul_le_mul_of_nonneg_left (hle.trans_eq hthreshold) hsum.le
  refine hx.trans_lt ?_
  rw [← mul_div_assoc, div_lt_iff₀ (by positivity)]
  nlinarith [mul_nonneg hi ha.le, mul_nonneg hi hb.le]

include ha hb hx in
/-- One step backward over an even numerator. -/
theorem lt_rest_of_even {t : ℝ} (i : ℕ) (ht : (a + b + i) * x / (a + 2 * i + 1) < t) :
    i / (a + 2 * i) < 1 + betaNumerator x a b (2 * i + 2) / t := by
  have hi : (0 : ℝ) ≤ i := Nat.cast_nonneg i
  have hbound : 0 < (a + b + i) * x / (a + 2 * i + 1) := by positivity
  have htpos : 0 < t := hbound.trans ht
  have hnumerator : betaNumerator x a b (2 * i + 2) / t =
      -((a + i) / (a + 2 * i) * ((a + b + i) * x / (a + 2 * i + 1) / t)) := by
    rw [betaNumerator_even]
    field_simp
  have hratio : (a + b + i) * x / (a + 2 * i + 1) / t < 1 := (div_lt_one htpos).mpr ht
  have hfactor : 0 < (a + i) / (a + 2 * i) := by positivity
  calc i / (a + 2 * i) = 1 - (a + i) / (a + 2 * i) := by field_simp; ring
    _ < 1 - (a + i) / (a + 2 * i) * ((a + b + i) * x / (a + 2 * i + 1) / t) :=
        sub_lt_sub_left (mul_lt_of_lt_one_right hfactor hratio) 1
    _ = _ := by rw [hnumerator, sub_eq_add_neg]

include ha hb hx hle in
/-- One step backward over an odd numerator. -/
theorem lt_rest_of_odd {t : ℝ} (i : ℕ) (ht : (i + 1 : ℝ) / (a + 2 * (i + 1)) < t) :
    (a + b + i) * x / (a + 2 * i + 1) < 1 + betaNumerator x a b (2 * i + 3) / t := by
  have hi : (0 : ℝ) ≤ i := Nat.cast_nonneg i
  have hbound : 0 < (i + 1 : ℝ) / (a + 2 * (i + 1)) := by positivity
  have htpos : 0 < t := hbound.trans ht
  have hnumerator : betaNumerator x a b (2 * i + 3) / t =
      (b - (i + 1)) * x / (a + 2 * i + 1) * ((i + 1 : ℝ) / (a + 2 * (i + 1)) / t) := by
    have hodd := betaNumerator_odd x a b i.succ_pos
    rw [Nat.cast_succ, show a + 2 * (i + 1 : ℝ) - 1 = a + 2 * i + 1 by ring] at hodd
    rw [show 2 * i + 3 = 2 * i.succ + 1 by omega, hodd]
    field_simp
  rw [hnumerator]
  rcases le_or_gt (i + 1 : ℝ) b with hib | hib
  · -- the numerator is not negative
    have hnonneg : 0 ≤ (b - (i + 1)) * x / (a + 2 * i + 1) *
        ((i + 1 : ℝ) / (a + 2 * (i + 1)) / t) := by
      have := sub_nonneg.mpr hib
      positivity
    exact (mul_div_lt_one ha hb hle i).trans_le (le_add_of_nonneg_right hnonneg)
  · have hratio : (i + 1 : ℝ) / (a + 2 * (i + 1)) / t < 1 := (div_lt_one htpos).mpr ht
    have hneg : (b - (i + 1)) * x / (a + 2 * i + 1) < 0 :=
      div_neg_of_neg_of_pos (mul_neg_of_neg_of_pos (sub_neg.mpr hib) hx) (by positivity)
    calc (a + b + i) * x / (a + 2 * i + 1)
        = x + (b - (i + 1)) * x / (a + 2 * i + 1) := by field_simp; ring
      _ < 1 + (b - (i + 1)) * x / (a + 2 * i + 1) :=
          add_lt_add_left (lt_one_of_le_betaThreshold ha hb hle) _
      _ < _ := add_lt_add_right (lt_mul_of_lt_one_right hneg hratio) 1

include ha hb hx hle in
/-- The rests of the fraction, cut off anywhere, are bounded away from zero. -/
theorem restFraction_bounds (n i : ℕ) :
    i / (a + 2 * i) < (restFraction (betaNumerator x a b) (2 * i + 1)).convs' n ∧
      (a + b + i) * x / (a + 2 * i + 1) <
        (restFraction (betaNumerator x a b) (2 * i + 2)).convs' n := by
  induction n generalizing i with
  | zero =>
    have hi : (0 : ℝ) ≤ i := Nat.cast_nonneg i
    rw [convs'_restFraction_zero, convs'_restFraction_zero, div_lt_one (by positivity)]
    exact ⟨by linarith, mul_div_lt_one ha hb hle i⟩
  | succ n ih =>
    rw [convs'_restFraction_succ, convs'_restFraction_succ]
    refine ⟨lt_rest_of_even ha hb hx i (ih i).2, lt_rest_of_odd ha hb hx hle i ?_⟩
    have hodd := (ih (i + 1)).1
    rwa [Nat.cast_succ] at hodd

include ha hb hx hle in
theorem restFraction_pos (k n : ℕ) :
    0 < (restFraction (betaNumerator x a b) (k + 1)).convs' n := by
  rcases Nat.even_or_odd' k with ⟨i, rfl | rfl⟩
  · exact lt_of_le_of_lt (by positivity) (restFraction_bounds ha hb hx hle n i).1
  · exact lt_trans (by positivity) (restFraction_bounds ha hb hx hle n i).2

end Rests

/-! ## The function -/

/-- Up to the threshold the function is the front factor times the fraction. -/
theorem incompleteBeta_eq_betaSeries (ha : 0 < a) (hb : 0 < b) (hx : 0 < x)
    (hle : x ≤ betaThreshold a b) : incompleteBeta x a b = some (betaSeries x a b) := by
  have hx1 := lt_one_of_le_betaThreshold ha hb hle
  rw [incompleteBeta, flipping_of_le betaSeries hle, unflipped, if_neg (not_le.mpr hx),
    if_neg (not_le.mpr hx1)]

/-- **The loop of the incomplete beta function computes the convergents.**  Up to the threshold
every rest of the fraction `1 + a₁ / (1 + a₂ / (1 + ⋯))` is positive, wherever it is cut off.  After
`m` passes in which no ratio is replaced the value is the quotient of the numerator and the
denominator with number `2 * m`, which is the fraction cut off there.  The loop ends after some
number of passes, and if no ratio is replaced in them, the function is the front factor times
`1 / (1 + a₂ / (1 + ⋯))`, cut off there. -/
theorem incompleteBeta_eq_convergent (ha : 0 < a) (hb : 0 < b) (hx : 0 < x)
    (hle : x ≤ betaThreshold a b) :
    (∀ k n, 0 < (restFraction (betaNumerator x a b) (k + 1)).convs' n) ∧
    (∀ m, Undisturbed x a b m →
      0 < (unitFraction (betaNumerator x a b)).dens (2 * m) ∧
      (betaStates x a b m).value = (unitFraction (betaNumerator x a b)).nums (2 * m) /
        (unitFraction (betaNumerator x a b)).dens (2 * m) ∧
      (0 < m → (betaStates x a b m).value =
        1 + 1 / (restFraction (betaNumerator x a b) 1).convs' (2 * m - 1))) ∧
    ∃ m, EndsAfter x a b m ∧ betaFraction x a b betaPasses 0 .start = betaStates x a b m ∧
      (Undisturbed x a b m → incompleteBeta x a b = some
        (betaFront x a b * (1 / (restFraction (betaNumerator x a b) 1).convs' (2 * m - 1)))) := by
  have hrest := restFraction_pos ha hb hx hle
  have hvalue : ∀ m, Undisturbed x a b m → 0 < m → (betaStates x a b m).value =
      1 + 1 / (restFraction (betaNumerator x a b) 1).convs' (2 * m - 1) := fun m hm hpos => by
    obtain ⟨hden, hnum⟩ := nums_eq_dens_mul_convs' _ hrest (2 * m)
    rw [hm.follows.value_eq, hnum, mul_div_cancel_left₀ _ hden.ne']
    obtain ⟨n, hn⟩ : ∃ n, 2 * m = n + 1 := ⟨2 * m - 1, by omega⟩
    rw [hn, convs'_unitFraction_succ, betaNumerator_one, Nat.add_sub_cancel]
  refine ⟨hrest, fun m hm => ⟨(nums_eq_dens_mul_convs' _ hrest _).1, hm.follows.value_eq,
    hvalue m hm⟩, ?_⟩
  obtain ⟨m, hends, hloop⟩ := exists_endsAfter x a b
  refine ⟨m, hends, hloop, fun hm => ?_⟩
  rw [incompleteBeta_eq_betaSeries ha hb hx hle, betaSeries, hloop, hvalue m hm hends.pos,
    add_sub_cancel_left]

/-- The first two passes with both parameters one.  The third partial numerator is zero, so the
second pass does not change the value. -/
theorem betaStates_one_one : Undisturbed (37 / 100 : ℝ) 1 1 2 ∧
    betaStates (37 / 100 : ℝ) 1 1 1 = ⟨163 / 200, 100 / 63, 163 / 63⟩ ∧
    betaStates (37 / 100 : ℝ) 1 1 2 = ⟨163 / 200, 200 / 163, 163 / 63⟩ := by
  have htiny : (betaTiny : ℝ) = 1e-30 := rfl
  have heven : betaEven (37 / 100 : ℝ) 1 1 0 = 1 := if_pos rfl
  have hodd : betaOdd (37 / 100 : ℝ) 1 1 0 = -37 / 100 := by norm_num [betaOdd]
  have heven' : betaEven (37 / 100 : ℝ) 1 1 1 = 0 := by norm_num [betaEven]
  have hodd' : betaOdd (37 / 100 : ℝ) 1 1 1 = -37 / 200 := by norm_num [betaOdd]
  -- the first pass
  have hkeeps : FractionState.Keeps (betaTiny : ℝ) 1 .start := by
    constructor <;> norm_num [FractionState.start, htiny]
  have hstep : FractionState.start.step (betaTiny : ℝ) 1 = ⟨2, 1, 2⟩ := by
    rw [hkeeps.step_eq]
    norm_num [FractionState.start]
  have hkeeps₁ : FractionState.Keeps (betaTiny : ℝ) (-37 / 100) ⟨2, 1, 2⟩ := by
    constructor <;> norm_num [htiny, abs_of_pos]
  have hone : betaStates (37 / 100 : ℝ) 1 1 1 = ⟨163 / 200, 100 / 63, 163 / 63⟩ := by
    rw [betaStates, betaStates, betaPass, heven, hodd, hstep, hkeeps₁.step_eq]
    norm_num
  -- the second pass
  have hkeeps₂ : FractionState.Keeps (betaTiny : ℝ) 0 ⟨163 / 200, 100 / 63, 163 / 63⟩ := by
    constructor <;> norm_num [htiny]
  have hstep' : FractionState.step (betaTiny : ℝ) 0 ⟨163 / 200, 100 / 63, 163 / 63⟩ =
      ⟨1, 1, 163 / 63⟩ := by
    rw [hkeeps₂.step_eq]
    norm_num
  have hkeeps₃ : FractionState.Keeps (betaTiny : ℝ) (-37 / 200) ⟨1, 1, 163 / 63⟩ := by
    constructor <;> norm_num [htiny, abs_of_pos]
  refine ⟨fun k hk => ?_, hone, ?_⟩
  · interval_cases k
    · rw [heven, hodd]
      exact ⟨hkeeps, hstep.symm ▸ hkeeps₁⟩
    · rw [heven', hodd', hone]
      exact ⟨hkeeps₂, hstep'.symm ▸ hkeeps₃⟩
  · rw [betaStates, hone, betaPass, heven', hodd', hstep', hkeeps₃.step_eq]
    norm_num

/-- With both parameters one, two passes are made and nothing is replaced.  The fraction is
`1 / (1 - x)`. -/
theorem incompleteBeta_one_one : (0 : ℝ) < 1 ∧ (0 : ℝ) < 37 / 100 ∧
    (37 / 100 : ℝ) ≤ betaThreshold 1 1 ∧ Undisturbed (37 / 100 : ℝ) 1 1 2 ∧
    EndsAfter (37 / 100 : ℝ) 1 1 2 ∧
    (betaStates (37 / 100 : ℝ) 1 1 2).value =
      (unitFraction (betaNumerator (37 / 100) 1 1)).nums 4 /
        (unitFraction (betaNumerator (37 / 100) 1 1)).dens 4 ∧
    incompleteBeta (37 / 100 : ℝ) 1 1 = some (betaFront (37 / 100) 1 1 * (100 / 63)) := by
  have hle : (37 / 100 : ℝ) ≤ betaThreshold 1 1 := by norm_num [betaThreshold]
  obtain ⟨-, hconv, m, hends, -, hfinal⟩ :=
    incompleteBeta_eq_convergent one_pos one_pos (by norm_num) hle
  obtain ⟨hundisturbed, hone, htwo⟩ := betaStates_one_one
  have htolerance : (betaTolerance : ℝ) = 1e-14 := rfl
  have hunsettled : ¬ (betaStates (37 / 100 : ℝ) 1 1 1).Settled := by
    rw [hone, FractionState.Settled, FractionState.change, htolerance]
    norm_num [abs_of_pos]
  have hsettled : (betaStates (37 / 100 : ℝ) 1 1 2).Settled := by
    rw [htwo, FractionState.Settled, FractionState.change, htolerance]
    norm_num
  obtain rfl : m = 2 := by
    rcases lt_trichotomy m 2 with hlt | heq | hgt
    · have hm : m = 1 := by have := hends.pos; omega
      exact absurd (hm ▸ hends.settled (hlt.trans (by decide))) hunsettled
    · exact heq
    · exact absurd hsettled (hends.unsettled 2 two_pos hgt)
  obtain ⟨-, hvalue, hrest⟩ := hconv 2 hundisturbed
  refine ⟨one_pos, by norm_num, hle, hundisturbed, hends, hvalue, ?_⟩
  have hfraction := hrest two_pos
  rw [htwo] at hfraction
  rw [hfinal hundisturbed, eq_sub_of_add_eq' hfraction.symm]
  norm_num

end SplitPlot
