import Mathlib
import SplitPlot.Proofs.Exact
import SplitPlot.Significance

/-!
# Rao's exponent

The exponent of Rao's approximation depends on two whole numbers only: the number `p` of variables,
and the degrees of freedom `h` between subjects, which are one less than the number of cells.  It is
the root of `((p h)² - 4) / (p² + h² - 5)`, and one where the divisor is zero.

## What decides about the root

Dividend and divisor both change their signs.  A negative number under the root, or a wrong value in
the place of the quotient `0 / 0`, would be seen in the tests of a few small designs and nowhere
else.  Two identities decide everything.  With `D` for the divisor, the quotient is

* `1 + (p² - 1) (h² - 1) / D`, so that it is at least one (`one_le_raoRadicand`), and
* `p² - (p² - 1) (p² - 4) / D`, so that it is at most `p²`, and equal to it for one or two variables
  (`raoRadicand_le_sq`).

For whole numbers neither product is negative, and the divisor is negative only for `p = h = 1`,
where both products are zero.  As `p` and `h` can be exchanged, `h` is a bound as well.

## Where the divisor is zero

One of the two numbers is one then, and the other is two (`raoDivisor_eq_zero_iff`).  The value that
is set is one, which is the smaller of the two; so it continues what holds for all other designs
with one variable or with two cells.
-/

namespace SplitPlot

namespace Significance

/-- The divisor of Rao's formula for `p` variables and `h` degrees of freedom between subjects. -/
noncomputable def raoDivisor (p h : ℕ) : ℝ := (p : ℝ) ^ 2 + (h : ℝ) ^ 2 - (5 : ℕ)

/-- What Rao's formula takes the root of. -/
noncomputable def raoRadicand (p h : ℕ) : ℝ := (((p : ℝ) * h) ^ 2 - (4 : ℕ)) / raoDivisor p h

section Formula

variable (p h : ℕ)

theorem raoExponent_succ : (raoExponent p (h + 1) : ℝ) =
    if raoDivisor p h = 0 then 1
    else if 0 < √(raoRadicand p h) then √(raoRadicand p h) else 1 := by
  have hdf : ((h + 1 : ℕ) : ℝ) - 1 = h := by
    push_cast
    ring
  have hdivisor : (p : ℝ) * p + h * h - ((5 : ℕ) : ℝ) = raoDivisor p h := by
    rw [raoDivisor]
    ring
  have hdividend : Scalar.square ((p : ℝ) * h) - ((4 : ℕ) : ℝ) = ((p : ℝ) * h) ^ 2 - 4 := by
    rw [Scalar.square]
    ring
  rw [raoExponent]
  simp only [hdf, hdivisor, hdividend, isZero_iff, isFinite, true_and]
  rfl

/-! ## Symmetry -/

theorem raoDivisor_comm : raoDivisor p h = raoDivisor h p := by
  rw [raoDivisor, raoDivisor, add_comm ((p : ℝ) ^ 2)]

theorem raoRadicand_comm : raoRadicand p h = raoRadicand h p := by
  rw [raoRadicand, raoRadicand, mul_comm (p : ℝ), raoDivisor_comm]

/-- Variables and degrees of freedom between subjects can be exchanged. -/
theorem raoExponent_comm : (raoExponent p (h + 1) : ℝ) = raoExponent h (p + 1) := by
  rw [raoExponent_succ, raoExponent_succ, raoDivisor_comm, raoRadicand_comm]

/-! ## Two identities -/

variable {p h} (hD : raoDivisor p h ≠ 0)

include hD

theorem raoRadicand_eq_one_add : raoRadicand p h =
    1 + ((p : ℝ) ^ 2 - 1) * ((h : ℝ) ^ 2 - 1) / raoDivisor p h := by
  rw [raoRadicand, div_eq_iff hD, add_mul, one_mul, div_mul_cancel₀ _ hD, raoDivisor]
  ring

theorem raoRadicand_eq_sq_sub : raoRadicand p h =
    (p : ℝ) ^ 2 - ((p : ℝ) ^ 2 - 1) * ((p : ℝ) ^ 2 - 4) / raoDivisor p h := by
  rw [raoRadicand, div_eq_iff hD, sub_mul, div_mul_cancel₀ _ hD, raoDivisor]
  ring

end Formula

section Bounds

variable {p h : ℕ} (hp : 1 ≤ p) (hh : 1 ≤ h)

/-! ## The sign of the divisor -/

include hp in
theorem sq_sub_one_nonneg : (0 : ℝ) ≤ (p : ℝ) ^ 2 - 1 :=
  sub_nonneg.mpr (one_le_pow₀ (Nat.one_le_cast.mpr hp))

include hp in
/-- No whole number lies between the roots of the product. -/
theorem sq_sub_one_mul_sq_sub_four_nonneg :
    (0 : ℝ) ≤ ((p : ℝ) ^ 2 - 1) * ((p : ℝ) ^ 2 - 4) := by
  rcases Nat.eq_or_lt_of_le hp with rfl | hp2
  · norm_num
  · have h2 : (2 : ℝ) ≤ p := by exact_mod_cast hp2
    have h4 : (0 : ℝ) ≤ (p : ℝ) ^ 2 - 4 := by nlinarith
    exact mul_nonneg (sq_sub_one_nonneg hp) h4

include hp hh

/-- Apart from three small pairs the divisor is positive. -/
theorem raoDivisor_pos_or : 0 < raoDivisor p h ∨ (p = 1 ∧ h = 1) ∨ (p = 1 ∧ h = 2) ∨
    (p = 2 ∧ h = 1) := by
  have hpos : 5 < p ^ 2 + h ^ 2 → 0 < raoDivisor p h := fun h5 => by
    rw [raoDivisor, sub_pos]
    exact_mod_cast h5
  rcases Nat.lt_or_ge p 3 with hp3 | hp3
  · rcases Nat.lt_or_ge h 3 with hh3 | hh3
    · interval_cases p <;> interval_cases h
      · exact .inr (.inl ⟨rfl, rfl⟩)
      · exact .inr (.inr (.inl ⟨rfl, rfl⟩))
      · exact .inr (.inr (.inr ⟨rfl, rfl⟩))
      · exact .inl (hpos (by norm_num))
    · exact .inl (hpos (by nlinarith))
  · exact .inl (hpos (by nlinarith))

/-- The divisor is zero if one of the numbers is one and the other is two, and else it is not. -/
theorem raoDivisor_eq_zero_iff : raoDivisor p h = 0 ↔ (p = 1 ∧ h = 2) ∨ (p = 2 ∧ h = 1) := by
  constructor
  · intro h0
    rcases raoDivisor_pos_or hp hh with hpos | ⟨rfl, rfl⟩ | hcase | hcase
    · exact absurd h0 hpos.ne'
    · norm_num [raoDivisor] at h0
    · exact .inl hcase
    · exact .inr hcase
  · rintro (⟨rfl, rfl⟩ | ⟨rfl, rfl⟩) <;> norm_num [raoDivisor]

/-- A divisor that is not zero is positive, but for one variable and two cells. -/
theorem raoDivisor_pos_or_one (hD : raoDivisor p h ≠ 0) : 0 < raoDivisor p h ∨ (p = 1 ∧ h = 1) := by
  rcases raoDivisor_pos_or hp hh with hpos | hone | hzero
  · exact .inl hpos
  · exact .inr hone
  · exact absurd ((raoDivisor_eq_zero_iff hp hh).mpr hzero) hD

/-! ## The value under the root -/

theorem one_le_raoRadicand (hD : raoDivisor p h ≠ 0) : 1 ≤ raoRadicand p h := by
  rw [raoRadicand_eq_one_add hD, le_add_iff_nonneg_right]
  rcases raoDivisor_pos_or_one hp hh hD with hpos | ⟨rfl, rfl⟩
  · exact div_nonneg (mul_nonneg (sq_sub_one_nonneg hp) (sq_sub_one_nonneg hh)) hpos.le
  · norm_num

theorem raoRadicand_le_sq (hD : raoDivisor p h ≠ 0) : raoRadicand p h ≤ (p : ℝ) ^ 2 := by
  rw [raoRadicand_eq_sq_sub hD, sub_le_self_iff]
  rcases raoDivisor_pos_or_one hp hh hD with hpos | ⟨rfl, rfl⟩
  · exact div_nonneg (sq_sub_one_mul_sq_sub_four_nonneg hp) hpos.le
  · norm_num

/-! ## The exponent -/

/-- The root is taken whenever the divisor is not zero, since it is positive then. -/
theorem raoExponent_eq_ite : (raoExponent p (h + 1) : ℝ) =
    if raoDivisor p h = 0 then 1 else √(raoRadicand p h) := by
  rw [raoExponent_succ]
  split_ifs with hD hpos
  · rfl
  · rfl
  · exact absurd (Real.sqrt_pos.mpr (one_pos.trans_le (one_le_raoRadicand hp hh hD))) hpos

theorem one_le_raoExponent : (1 : ℝ) ≤ raoExponent p (h + 1) := by
  rw [raoExponent_eq_ite hp hh]
  split_ifs with hD
  · exact le_rfl
  · exact Real.one_le_sqrt.mpr (one_le_raoRadicand hp hh hD)

theorem raoExponent_le_variables : (raoExponent p (h + 1) : ℝ) ≤ p := by
  rw [raoExponent_eq_ite hp hh]
  split_ifs with hD
  · exact Nat.one_le_cast.mpr hp
  · exact Real.sqrt_le_iff.mpr ⟨Nat.cast_nonneg p, raoRadicand_le_sq hp hh hD⟩

theorem raoExponent_le_min : (raoExponent p (h + 1) : ℝ) ≤ (min p h : ℕ) := by
  rw [Nat.cast_min]
  refine le_min (raoExponent_le_variables hp hh) ?_
  rw [raoExponent_comm]
  exact raoExponent_le_variables hh hp

/-- With one or two variables, and no fewer degrees of freedom, their number is the exponent. -/
theorem raoExponent_of_le_two (hle : p ≤ h) (h2 : p ≤ 2) : (raoExponent p (h + 1) : ℝ) = p := by
  rcases Nat.eq_or_lt_of_le hp with rfl | hlt
  · have hone : (raoExponent 1 (h + 1) : ℝ) ≤ 1 := by
      exact_mod_cast raoExponent_le_variables hp hh
    rw [Nat.cast_one]
    exact le_antisymm hone (one_le_raoExponent hp hh)
  · obtain rfl : p = 2 := le_antisymm h2 hlt
    have hD : raoDivisor 2 h ≠ 0 := by
      rw [Ne, raoDivisor_eq_zero_iff hp hh]
      omega
    have hradicand : raoRadicand 2 h = ((2 : ℕ) : ℝ) ^ 2 := by
      rw [raoRadicand_eq_sq_sub hD]
      norm_num
    rw [raoExponent_eq_ite hp hh, if_neg hD, hradicand, Real.sqrt_sq (Nat.cast_nonneg 2)]

theorem raoExponent_eq_min (h2 : min p h ≤ 2) : (raoExponent p (h + 1) : ℝ) = (min p h : ℕ) := by
  rcases le_total p h with hle | hle
  · rw [min_eq_left hle] at h2 ⊢
    exact raoExponent_of_le_two hp hh hle h2
  · rw [min_eq_right hle] at h2 ⊢
    rw [raoExponent_comm]
    exact raoExponent_of_le_two hh hp hle h2

end Bounds

/-- **Rao's exponent is well behaved.**  For `p` variables and `k` cells, so that there are `k - 1`
degrees of freedom between subjects, the exponent is the root of Rao's quotient unless the divisor
is zero, and then it is one.  The quotient is never negative.  The exponent lies between one and the
smaller of the number of variables and the degrees of freedom, it stays the same when these two are
exchanged, and it is the smaller one if that is at most two.  This includes the two cases in which
the divisor is zero: one variable and three cells, and two variables and two cells. -/
theorem raoExponent_bounds {p k : ℕ} (hp : 1 ≤ p) (hk : 2 ≤ k) :
    ((raoExponent p k : ℝ) = if raoDivisor p (k - 1) = 0 then 1 else √(raoRadicand p (k - 1))) ∧
    (raoDivisor p (k - 1) ≠ 0 → 0 ≤ raoRadicand p (k - 1)) ∧
    (1 : ℝ) ≤ raoExponent p k ∧ (raoExponent p k : ℝ) ≤ (min p (k - 1) : ℕ) ∧
    (raoExponent p k : ℝ) = raoExponent (k - 1) (p + 1) ∧
    (min p (k - 1) ≤ 2 → (raoExponent p k : ℝ) = (min p (k - 1) : ℕ)) ∧
    (raoDivisor p (k - 1) = 0 ↔ (p = 1 ∧ k = 3) ∨ (p = 2 ∧ k = 2)) := by
  obtain ⟨h, rfl⟩ : ∃ h, k = h + 1 := ⟨k - 1, by omega⟩
  have hh : 1 ≤ h := by omega
  rw [Nat.add_sub_cancel]
  refine ⟨raoExponent_eq_ite hp hh, fun hD => zero_le_one.trans (one_le_raoRadicand hp hh hD),
    one_le_raoExponent hp hh, raoExponent_le_min hp hh, raoExponent_comm p h,
    raoExponent_eq_min hp hh, ?_⟩
  rw [raoDivisor_eq_zero_iff hp hh]
  omega

/-- Seven variables and four cells, for which the exponent is the root of `437 / 53`, and one
variable and three cells, for which the divisor is zero. -/
theorem raoExponent_seven_one :
    (1 ≤ 7 ∧ 2 ≤ 4 ∧ (raoExponent 7 4 : ℝ) = √(437 / 53) ∧ (1 : ℝ) ≤ raoExponent 7 4 ∧
      (raoExponent 7 4 : ℝ) ≤ 3 ∧ (raoExponent 7 4 : ℝ) = raoExponent 3 8) ∧
    1 ≤ 1 ∧ 2 ≤ 3 ∧ raoDivisor 1 2 = 0 ∧ (raoExponent 1 3 : ℝ) = 1 := by
  have hdivisor : raoDivisor 7 3 = 53 := by norm_num [raoDivisor]
  obtain ⟨hroot, -, hone, hmin, hcomm, -, -⟩ :=
    raoExponent_bounds (p := 7) (k := 4) (by decide) (by decide)
  obtain ⟨-, -, -, -, -, heq, hzero⟩ := raoExponent_bounds (p := 1) (k := 3) (by decide) (by decide)
  have hsmall : (raoExponent 1 3 : ℝ) = (min 1 (3 - 1) : ℕ) := heq (by decide)
  refine ⟨⟨by decide, by decide, ?_, hone, ?_, hcomm⟩, by decide, by decide,
    hzero.mpr (.inl ⟨rfl, rfl⟩), by simpa using hsmall⟩
  · rw [hroot, hdivisor, if_neg (by norm_num), raoRadicand, hdivisor]
    norm_num
  · exact_mod_cast hmin

end Significance

end SplitPlot
