import Mathlib
import SplitPlot.Proofs.Exact
import SplitPlot.Special.IncompleteBeta

/-!
# Continued fractions evaluated from the front

A continued fraction `1 + α₁ / (1 + α₂ / (1 + ⋯))` has two values at its `n`-th partial numerator.
One is the quotient of the numerator and the denominator that the three-term recurrences give
(`nums`, `dens`).  The other is the fraction itself, cut off there and worked out from the back
(`convs'`).

## The evaluation

The evaluation from the front keeps neither numerators nor denominators, only the ratio of the last
two of each and the quotient (`FractionState`).  As long as no ratio is replaced, that is all there
is to it: `FractionState.Follows` says what the state holds after `n` partial numerators, each step
keeps it (`FractionState.Follows.step`), and so the value is the quotient of the recurrences.

That no denominator is zero is not a hypothesis.  A ratio that is not replaced is not zero, and the
ratios multiply up to the numerators and the denominators.

## From the front and from the back

The recurrences run forward and the fraction is worked out backward.  What joins the two is that the
first numerator can be split off the recurrences as well (`nums_unitFraction_succ`,
`dens_unitFraction_succ`): the denominator is the numerator of the rest of the fraction.  In a field
the fraction from the back can divide by zero where the quotient does not, so the two agree under a
condition on the rests of the fraction, of which it is enough that they are positive
(`nums_eq_dens_mul_convs'`).  Mathlib's theorem of this kind asks for positive partial numerators,
and here every second one is negative.
-/

namespace SplitPlot

open GenContFract

/-! ## Fractions with partial denominators one -/

/-- The continued fraction `1 + α 1 / (1 + α 2 / (1 + ⋯))`. -/
def unitFraction (α : ℕ → ℝ) : GenContFract ℝ := ⟨1, .ofStream fun n => ⟨α (n + 1), 1⟩⟩

/-- What is left of the fraction behind its `k`-th partial numerator. -/
def restFraction (α : ℕ → ℝ) (k : ℕ) : GenContFract ℝ := unitFraction fun n => α (k + n)

variable (α : ℕ → ℝ)

theorem get?_unitFraction (n : ℕ) : (unitFraction α).s.get? n = some ⟨α (n + 1), 1⟩ := rfl

theorem restFraction_succ (k : ℕ) :
    restFraction α (k + 1) = restFraction (fun n => α (k + n)) 1 := by
  simp only [restFraction, Nat.add_assoc]

theorem contsAux_unitFraction (n : ℕ) : (unitFraction α).contsAux (n + 2) =
    ⟨((unitFraction α).contsAux (n + 1)).a + α (n + 1) * ((unitFraction α).contsAux n).a,
      ((unitFraction α).contsAux (n + 1)).b + α (n + 1) * ((unitFraction α).contsAux n).b⟩ := by
  rw [contsAux_recurrence (get?_unitFraction α n) rfl rfl, one_mul, one_mul]

/-- The recurrences, with the first partial numerator split off. -/
theorem contsAux_unitFraction_succ : ∀ n, (unitFraction α).contsAux (n + 1) =
    ⟨((restFraction α 1).contsAux n).a + α 1 * ((restFraction α 1).contsAux n).b,
      ((restFraction α 1).contsAux n).a⟩
  | 0 => by simp [unitFraction, restFraction]
  | 1 => (contsAux_unitFraction α 0).trans (by simp [unitFraction, restFraction])
  | n + 2 => by
    rw [contsAux_unitFraction, contsAux_unitFraction_succ (n + 1), contsAux_unitFraction_succ n,
      restFraction, contsAux_unitFraction, Nat.add_comm 1 (n + 1)]
    congr 1
    ring

theorem nums_unitFraction_succ (n : ℕ) : (unitFraction α).nums (n + 1) =
    (restFraction α 1).nums n + α 1 * (restFraction α 1).dens n :=
  congrArg Pair.a (contsAux_unitFraction_succ α (n + 1))

theorem dens_unitFraction_succ (n : ℕ) :
    (unitFraction α).dens (n + 1) = (restFraction α 1).nums n :=
  congrArg Pair.b (contsAux_unitFraction_succ α (n + 1))

/-- The fraction worked out from the back, with the first partial numerator split off. -/
theorem convs'_unitFraction_succ (n : ℕ) :
    (unitFraction α).convs' (n + 1) = 1 + α 1 / (restFraction α 1).convs' n := by
  rw [convs', convs'Aux_succ_some (get?_unitFraction α 0)]
  have htail : (unitFraction α).s.tail = (restFraction α 1).s := by
    refine Stream'.Seq.ext fun i => ?_
    rw [Stream'.Seq.get?_tail, get?_unitFraction, restFraction, get?_unitFraction,
      Nat.add_comm 1 (i + 1)]
  rw [htail]
  rfl

theorem convs'_restFraction_zero (k : ℕ) : (restFraction α k).convs' 0 = 1 := zeroth_conv'_eq_h

theorem convs'_restFraction_succ (k n : ℕ) :
    (restFraction α k).convs' (n + 1) = 1 + α (k + 1) / (restFraction α (k + 1)).convs' n := by
  rw [restFraction_succ, restFraction, convs'_unitFraction_succ]

/-- **The recurrences and the fraction worked out from the back agree** where the rests of the
fraction are positive.  The denominators are positive then. -/
theorem nums_eq_dens_mul_convs' (hrest : ∀ k n, 0 < (restFraction α (k + 1)).convs' n) (n : ℕ) :
    0 < (unitFraction α).dens n ∧
      (unitFraction α).nums n = (unitFraction α).dens n * (unitFraction α).convs' n := by
  induction n generalizing α with
  | zero =>
    rw [zeroth_den_eq_one, zeroth_num_eq_h, zeroth_conv'_eq_h]
    exact ⟨one_pos, (one_mul _).symm⟩
  | succ n ih =>
    have hrest' : ∀ k n, 0 < (restFraction (fun i => α (1 + i)) (k + 1)).convs' n := fun k n => by
      have h := hrest (k + 1) n
      rw [restFraction] at h ⊢
      simpa only [Nat.add_assoc, Nat.add_left_comm 1] using h
    obtain ⟨hden, hnum⟩ := ih _ hrest'
    have hnum : (restFraction α 1).nums n =
        (restFraction α 1).dens n * (restFraction α 1).convs' n := hnum
    have hpos : 0 < (restFraction α 1).convs' n := hrest 0 n
    rw [dens_unitFraction_succ, nums_unitFraction_succ, convs'_unitFraction_succ, hnum]
    refine ⟨mul_pos hden hpos, ?_⟩
    field_simp

/-! ## The evaluation -/

theorem betaTiny_pos : (0 : ℝ) < betaTiny := by
  show (0 : ℝ) < 1e-30
  norm_num

namespace FractionState

/-- A guarded number is not zero. -/
theorem guard_ne_zero {tiny : ℝ} (x : ℝ) (htiny : 0 < tiny) : guard tiny x ≠ 0 := by
  rw [guard, abs_eq]
  split
  · exact htiny.ne'
  · next h => exact abs_pos.mp (lt_of_lt_of_le htiny (not_lt.mp h))

/-- A step replaces neither of the two ratios. -/
structure Keeps {K : Type} [Scalar K] (tiny numerator : K) (s : FractionState K) : Prop where
  /-- The ratio of the denominators is not too close to zero. -/
  denominator : ¬ Scalar.abs (1 + numerator * s.d) < tiny
  /-- The ratio of the numerators is not too close to zero. -/
  numerator : ¬ Scalar.abs (1 + numerator / s.c) < tiny

/-- What a step gives that replaces nothing. -/
theorem Keeps.step_eq {K : Type} [Scalar K] {tiny numerator : K} {s : FractionState K}
    (h : s.Keeps tiny numerator) : s.step tiny numerator =
      ⟨1 + numerator / s.c, 1 / (1 + numerator * s.d),
        s.value * (1 / (1 + numerator * s.d) * (1 + numerator / s.c))⟩ := by
  rw [step, guard, guard, if_neg h.denominator, if_neg h.numerator]

theorem Keeps.ne_zero {tiny numerator : ℝ} (htiny : 0 < tiny) {s : FractionState ℝ}
    (h : s.Keeps tiny numerator) : 1 + numerator * s.d ≠ 0 ∧ 1 + numerator / s.c ≠ 0 := by
  have hne : ∀ y : ℝ, ¬ Scalar.abs y < tiny → y ≠ 0 := fun y hy => by
    have hguard := guard_ne_zero y htiny
    rwa [guard, if_neg hy] at hguard
  exact ⟨hne _ h.denominator, hne _ h.numerator⟩

/-- What the state holds after `n` partial numerators. -/
structure Follows (n : ℕ) (s : FractionState ℝ) : Prop where
  /-- The numerator is not zero. -/
  nums_ne_zero : (unitFraction α).nums n ≠ 0
  /-- The denominator is not zero. -/
  dens_ne_zero : (unitFraction α).dens n ≠ 0
  /-- The ratio of the last two numerators. -/
  c_eq : s.c = (unitFraction α).nums n / ((unitFraction α).contsAux n).a
  /-- The ratio of the last but one to the last denominator. -/
  d_eq : s.d = ((unitFraction α).contsAux n).b / (unitFraction α).dens n
  /-- The value is the convergent. -/
  value_eq : s.value = (unitFraction α).nums n / (unitFraction α).dens n

variable {α}

theorem follows_start : Follows α 0 start where
  nums_ne_zero := one_ne_zero
  dens_ne_zero := one_ne_zero
  c_eq := (div_one _).symm
  d_eq := (div_one _).symm
  value_eq := (div_one _).symm

/-- A step that replaces nothing goes on to the next convergent. -/
theorem Follows.step {tiny : ℝ} (htiny : 0 < tiny) {n : ℕ} {s : FractionState ℝ}
    (h : s.Follows α n) (hkeeps : s.Keeps tiny (α (n + 1))) :
    (s.step tiny (α (n + 1))).Follows α (n + 1) := by
  obtain ⟨hA, hB, hc, hd, hvalue⟩ := h
  have hnum : (unitFraction α).nums (n + 1) =
      (unitFraction α).nums n + α (n + 1) * ((unitFraction α).contsAux n).a :=
    congrArg Pair.a (contsAux_unitFraction α n)
  have hden : (unitFraction α).dens (n + 1) =
      (unitFraction α).dens n + α (n + 1) * ((unitFraction α).contsAux n).b :=
    congrArg Pair.b (contsAux_unitFraction α n)
  -- both ratios of the step, brought over the last numerator and the last denominator
  have hratioA : 1 + α (n + 1) / s.c =
      (unitFraction α).nums (n + 1) / (unitFraction α).nums n := by
    rw [hc, hnum, div_div_eq_mul_div, add_div, div_self hA]
  have hratioB : 1 + α (n + 1) * s.d =
      (unitFraction α).dens (n + 1) / (unitFraction α).dens n := by
    rw [hd, hden, ← mul_div_assoc, add_div, div_self hB]
  obtain ⟨hneB, hneA⟩ := hkeeps.ne_zero htiny
  rw [hratioA] at hneA
  rw [hratioB] at hneB
  have hA' := (div_ne_zero_iff.mp hneA).1
  have hB' := (div_ne_zero_iff.mp hneB).1
  rw [hkeeps.step_eq, hratioA, hratioB, hvalue, one_div_div]
  refine ⟨hA', hB', rfl, rfl, ?_⟩
  field_simp

/-- The state after the first `n` partial numerators. -/
noncomputable def after (tiny : ℝ) (α : ℕ → ℝ) : ℕ → FractionState ℝ
  | 0 => start
  | n + 1 => (after tiny α n).step tiny (α (n + 1))

/-- **The evaluation from the front computes the convergents**, as long as it replaces no ratio. -/
theorem follows_after {tiny : ℝ} (htiny : 0 < tiny) {n : ℕ}
    (h : ∀ k < n, (after tiny α k).Keeps tiny (α (k + 1))) : (after tiny α n).Follows α n := by
  induction n with
  | zero => exact follows_start
  | succ n ih =>
    exact (ih fun k hk => h k (hk.trans n.lt_succ_self)).step htiny (h n n.lt_succ_self)

end FractionState

end SplitPlot
