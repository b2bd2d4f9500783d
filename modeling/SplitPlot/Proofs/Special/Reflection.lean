import Mathlib
import SplitPlot.Proofs.Exact
import SplitPlot.Special.IncompleteBeta

/-!
# The flip of the incomplete beta function

Above the threshold the incomplete beta function is evaluated through its symmetry, by a call with
the flipped arguments `1 - x`, `b` and `a`.  Nothing decreases in that call.

## Endless flips

The evaluation is given up when it asks for a third flip.  The arguments after that flip are those
after the first one, as long as a number that is taken from one three times is what it was after the
first time (`ComplementsRepeat`).  That is so in exact arithmetic (`complementsRepeat_real`).  It is
so in binary arithmetic with rounding too, where the first difference is rounded and the others are
exact.

Then nothing is lost by giving up.  A larger bound on the flips gives the same
(`flipping?_add_betaFlips`), and there is no value exactly if the arguments are flipped again after
any number of flips (`flipping_eq_none_iff`).

## One flip

In exact arithmetic the recursion comes to an end because the two thresholds add up to one
(`betaThreshold_add`).  If `x` lies above the one, then `1 - x` lies below the other, and the
flipped arguments are not flipped again.  For the same reason exactly one of `x` and `1 - x` is
flipped, unless `x` is the threshold.  The call that is flipped then is one minus the other, so the
two add up to one, whatever the value of the other is.

Neither argument looks at the front factor or at the continued fraction.  So both are carried out
for an arbitrary function in the place of `betaSeries`, for which the logarithm, the exponential and
the number of passes through the fraction play no part.  `FlipsOnce` is what they come to.
-/

namespace SplitPlot

/-! ## Any number of flips -/

section Flipping

variable {K : Type} [Scalar K]

/-- The arguments are flipped: they lie inside the unit interval and above their threshold. -/
def NeedsFlip (x a b : K) : Prop := ¬ x ≤ 0 ∧ ¬ 1 ≤ x ∧ betaThreshold a b < x

/-- The arguments are flipped, and however often they have been flipped they are flipped again. -/
def FlipsForever (x a b : K) : Prop :=
  ∀ n, let flipped := (fun e : K × K × K => (1 - e.1, e.2.2, e.2.1))^[n] (x, a, b)
    NeedsFlip flipped.1 flipped.2.1 flipped.2.2

/-- An argument that is flipped three times is what it was after the first flip. -/
def ComplementsRepeat (K : Type) [Scalar K] : Prop :=
  ∀ x a b : K, NeedsFlip x a b → 1 - (1 - (1 - x)) = 1 - x

variable {series : K → K → K → K} {x a b v : K} {flips : ℕ}

theorem flipping?_succ_of_needsFlip (h : NeedsFlip x a b) (flips : ℕ) :
    flipping? series (flips + 1) x a b =
      (flipping? series flips (1 - x) b a).map fun v => 1 - v := by
  obtain ⟨h0, h1, hx⟩ := h
  rw [flipping?, if_neg h0, if_neg h1, if_pos hx]

/-- Arguments that are not flipped have a value, and any bound on the flips is enough for it. -/
theorem exists_flipping?_eq_some (series : K → K → K → K) (h : ¬ NeedsFlip x a b) :
    ∃ v, ∀ flips, flipping? series flips x a b = some v := by
  by_cases h0 : x ≤ 0
  · exact ⟨0, fun flips => by rw [flipping?.eq_def, if_pos h0]⟩
  by_cases h1 : 1 ≤ x
  · exact ⟨1, fun flips => by rw [flipping?.eq_def, if_neg h0, if_pos h1]⟩
  · have hx : ¬ betaThreshold a b < x := fun hx => h ⟨h0, h1, hx⟩
    exact ⟨series x a b, fun flips => by
      rw [flipping?.eq_def, if_neg h0, if_neg h1, if_neg hx]⟩

theorem needsFlip_of_flipping?_eq_none (h : flipping? series flips x a b = none) :
    NeedsFlip x a b := by
  by_contra hflip
  obtain ⟨v, hcalls⟩ := exists_flipping?_eq_some series hflip
  exact Option.some_ne_none v ((hcalls flips).symm.trans h)

theorem flipping?_zero_eq_none_iff : flipping? series 0 x a b = none ↔ NeedsFlip x a b := by
  refine ⟨needsFlip_of_flipping?_eq_none, fun h => ?_⟩
  obtain ⟨h0, h1, hx⟩ := h
  rw [flipping?, if_neg h0, if_neg h1, if_pos hx]

/-- A bound is too small if the arguments are flipped and one less is too small for the rest. -/
theorem flipping?_succ_eq_none_iff : flipping? series (flips + 1) x a b = none ↔
    NeedsFlip x a b ∧ flipping? series flips (1 - x) b a = none := by
  constructor
  · intro h
    have hflip := needsFlip_of_flipping?_eq_none h
    rw [flipping?_succ_of_needsFlip hflip, Option.map_eq_none_iff] at h
    exact ⟨hflip, h⟩
  · rintro ⟨hflip, h⟩
    rw [flipping?_succ_of_needsFlip hflip, h]
    rfl

/-- A larger bound gives the same value. -/
theorem flipping?_add_eq_some (h : flipping? series flips x a b = some v) (more : ℕ) :
    flipping? series (more + flips) x a b = some v := by
  induction flips generalizing x a b v with
  | zero =>
    by_cases hflip : NeedsFlip x a b
    · rw [flipping?_zero_eq_none_iff.mpr hflip] at h
      cases h
    · obtain ⟨w, hcalls⟩ := exists_flipping?_eq_some series hflip
      rw [hcalls, ← hcalls 0, h]
  | succ flips ih =>
    by_cases hflip : NeedsFlip x a b
    · rw [flipping?_succ_of_needsFlip hflip, Option.map_eq_some_iff] at h
      obtain ⟨w, hw, rfl⟩ := h
      rw [← add_assoc, flipping?_succ_of_needsFlip hflip, ih hw]
      rfl
    · obtain ⟨w, hcalls⟩ := exists_flipping?_eq_some series hflip
      rw [hcalls, ← hcalls (flips + 1), h]

theorem flipsForever_iff :
    FlipsForever x a b ↔ NeedsFlip x a b ∧ FlipsForever (1 - x) b a :=
  ⟨fun h => ⟨h 0, fun n => h (n + 1)⟩, fun h n => Nat.casesOn n h.1 fun n => h.2 n⟩

/-- No number of flips is enough for arguments that are flipped for ever. -/
theorem FlipsForever.flipping?_eq_none (h : FlipsForever x a b) (flips : ℕ) :
    flipping? series flips x a b = none := by
  induction flips generalizing x a b with
  | zero => exact flipping?_zero_eq_none_iff.mpr (h 0)
  | succ flips ih =>
    obtain ⟨hflip, hnext⟩ := flipsForever_iff.mp h
    exact flipping?_succ_eq_none_iff.mpr ⟨hflip, ih hnext⟩

/-- Arguments that come back after two flips are flipped for ever, if they are flipped twice. -/
theorem flipsForever_of_cycle (hx : 1 - (1 - x) = x) (h : NeedsFlip x a b)
    (hback : NeedsFlip (1 - x) b a) : FlipsForever x a b := by
  intro n
  induction n generalizing x a b with
  | zero => exact h
  | succ n ih => exact ih (by rw [hx]) hback (by rwa [hx])

section Repeat

variable (hrepeat : ComplementsRepeat K)

include hrepeat

/-- **There is no value exactly where the flips do not end.** -/
theorem flipping_eq_none_iff : flipping series x a b = none ↔ FlipsForever x a b := by
  refine ⟨fun h => ?_, fun h => h.flipping?_eq_none betaFlips⟩
  obtain ⟨hfirst, h⟩ := flipping?_succ_eq_none_iff.mp h
  obtain ⟨hsecond, h⟩ := flipping?_succ_eq_none_iff.mp h
  have hthird := flipping?_zero_eq_none_iff.mp h
  exact flipsForever_iff.mpr
    ⟨hfirst, flipsForever_of_cycle (hrepeat x a b hfirst) hsecond hthird⟩

/-- More flips change nothing. -/
theorem flipping?_add_betaFlips (more : ℕ) :
    flipping? series (more + betaFlips) x a b = flipping series x a b := by
  cases h : flipping series x a b with
  | none => exact ((flipping_eq_none_iff hrepeat).mp h).flipping?_eq_none _
  | some v => exact flipping?_add_eq_some h more

end Repeat

end Flipping

/-- Exact differences are not rounded at all. -/
theorem complementsRepeat_real : ComplementsRepeat ℝ := fun x _ _ _ => sub_sub_cancel 1 (1 - x)

/-! ## The two thresholds -/

section Threshold

variable {a b : ℝ} (ha : 0 < a) (hb : 0 < b)

include ha hb

theorem betaThreshold_pos : 0 < betaThreshold a b := by
  rw [betaThreshold]
  positivity

/-- The thresholds of the arguments and of the flipped arguments add up to one. -/
theorem betaThreshold_add : betaThreshold a b + betaThreshold b a = 1 := by
  rw [betaThreshold, betaThreshold, add_comm b a, ← add_div, div_eq_one_iff_eq (by positivity)]
  push_cast
  ring

/-- Flipped arguments lie above their threshold exactly if the arguments lie below theirs. -/
theorem betaThreshold_lt_one_sub_iff {x : ℝ} :
    betaThreshold b a < 1 - x ↔ x < betaThreshold a b := by
  rw [← betaThreshold_add ha hb, lt_sub_comm, add_sub_cancel_right]

theorem needsFlip_iff {x : ℝ} : NeedsFlip x a b ↔ betaThreshold a b < x ∧ x < 1 := by
  rw [NeedsFlip, not_le, not_le]
  exact ⟨fun h => ⟨h.2.2, h.2.1⟩, fun h => ⟨(betaThreshold_pos ha hb).trans h.1, h.2, h.1⟩⟩

/-- Flipped arguments are not flipped again. -/
theorem not_needsFlip_flipped {x : ℝ} (h : NeedsFlip x a b) : ¬ NeedsFlip (1 - x) b a := by
  rw [needsFlip_iff ha hb] at h
  rw [needsFlip_iff hb ha, betaThreshold_lt_one_sub_iff ha hb]
  exact fun hback => h.1.asymm hback.1

end Threshold

/-! ## One flip is enough -/

/-- The value for arguments that are not flipped. -/
noncomputable def unflipped (series : ℝ → ℝ → ℝ → ℝ) (x a b : ℝ) : ℝ :=
  if x ≤ 0 then 0 else if 1 ≤ x then 1 else series x a b

section Once

variable {a b x : ℝ} (ha : 0 < a) (hb : 0 < b) (series : ℝ → ℝ → ℝ → ℝ)

/-- One flip is all that is needed, and more flips give the same value. -/
theorem exists_flipping?_succ (ha : 0 < a) (hb : 0 < b) (x : ℝ) :
    ∃ v, ∀ flips, flipping? series (flips + 1) x a b = some v := by
  by_cases h : NeedsFlip x a b
  · obtain ⟨v, hcalls⟩ := exists_flipping?_eq_some series (not_needsFlip_flipped ha hb h)
    refine ⟨1 - v, fun flips => ?_⟩
    rw [flipping?_succ_of_needsFlip h, hcalls flips]
    rfl
  · obtain ⟨v, hcalls⟩ := exists_flipping?_eq_some series h
    exact ⟨v, fun flips => hcalls (flips + 1)⟩

theorem flipping_of_le (hx : x ≤ betaThreshold a b) :
    flipping series x a b = some (unflipped series x a b) := by
  rw [flipping, flipping?.eq_def, unflipped, if_neg (not_lt.mpr hx)]
  split_ifs <;> rfl

include ha hb

theorem flipping?_succ_eq_flipping (x : ℝ) (flips : ℕ) :
    flipping? series (flips + 1) x a b = flipping series x a b := by
  obtain ⟨v, hcalls⟩ := exists_flipping?_succ series ha hb x
  rw [flipping, betaFlips, hcalls flips, hcalls 1]

/-- The equation of the recursion. -/
theorem flipping_eq (x : ℝ) : flipping series x a b =
    if x ≤ 0 then some 0 else if 1 ≤ x then some 1
    else if betaThreshold a b < x then (flipping series (1 - x) b a).map fun v => 1 - v
    else some (series x a b) := by
  rw [← flipping?_succ_eq_flipping hb ha series (1 - x) 0]
  exact flipping?.eq_def series betaFlips x a b

theorem flipping_of_lt (hx : betaThreshold a b < x) :
    flipping series x a b = some (1 - unflipped series (1 - x) b a) := by
  have h0 : ¬ x ≤ 0 := not_le.mpr ((betaThreshold_pos ha hb).trans hx)
  by_cases h1 : 1 ≤ x
  · rw [flipping_eq ha hb, if_neg h0, if_pos h1, unflipped, if_pos (sub_nonpos.mpr h1), sub_zero]
  · have hback : 1 - x ≤ betaThreshold b a := by
      rw [← not_lt, betaThreshold_lt_one_sub_iff ha hb]
      exact hx.asymm
    rw [flipping_eq ha hb, if_neg h0, if_neg h1, if_pos hx, flipping_of_le series hback]
    rfl

/-- Of two arguments that add up to one, and are not the thresholds, exactly one is flipped, and it
takes the value that the other leaves of one. -/
theorem exists_flipping_flipped (hx : x ≠ betaThreshold a b) :
    ∃ v, flipping series x a b = some v ∧ flipping series (1 - x) b a = some (1 - v) := by
  have hiff := betaThreshold_lt_one_sub_iff ha hb (x := x)
  rcases hx.lt_or_gt with hlt | hgt
  · refine ⟨_, flipping_of_le series hlt.le, ?_⟩
    rw [flipping_of_lt hb ha series (hiff.mpr hlt), sub_sub_cancel]
  · have hle : 1 - x ≤ betaThreshold b a := not_lt.mp (mt hiff.mp hgt.asymm)
    refine ⟨_, flipping_of_lt ha hb series hgt, ?_⟩
    rw [flipping_of_le series hle, sub_sub_cancel]

end Once

/-- What holds of an evaluation of the incomplete beta function for the parameters `a` and `b`,
where `calls` is told how many flips it may take, and `value` is not. -/
structure FlipsOnce (series : ℝ → ℝ → ℝ → ℝ) (calls : ℕ → ℝ → ℝ → ℝ → Option ℝ)
    (value : ℝ → ℝ → ℝ → Option ℝ) (a b : ℝ) : Prop where
  /-- There is a value for every argument. -/
  ends : ∀ x, ∃ v, value x a b = some v
  /-- One flip is all that is needed, and more flips give the same value. -/
  calls_succ : ∀ x flips, calls (flips + 1) x a b = value x a b
  /-- A flip is needed between the threshold and one, and nowhere else. -/
  calls_zero : ∀ x, calls 0 x a b = none ↔ betaThreshold a b < x ∧ x < 1
  /-- The equation of the recursion. -/
  recursion : ∀ x, value x a b =
    if x ≤ 0 then some 0 else if 1 ≤ x then some 1
    else if betaThreshold a b < x then (value (1 - x) b a).map fun v => 1 - v
    else some (series x a b)
  /-- The complement law. -/
  add_flipped : ∀ x, x ≠ betaThreshold a b →
    ∃ v w, value x a b = some v ∧ value (1 - x) b a = some w ∧ v + w = 1

theorem flipsOnce_flipping {a b : ℝ} (ha : 0 < a) (hb : 0 < b) (series : ℝ → ℝ → ℝ → ℝ) :
    FlipsOnce series (flipping? series) (flipping series) a b where
  ends x := (exists_flipping?_succ series ha hb x).imp fun _ hcalls => hcalls 1
  calls_succ := flipping?_succ_eq_flipping ha hb series
  calls_zero x := flipping?_zero_eq_none_iff.trans (needsFlip_iff ha hb)
  recursion := flipping_eq ha hb series
  add_flipped x hx := by
    obtain ⟨v, hv, hw⟩ := exists_flipping_flipped ha hb series hx
    exact ⟨v, 1 - v, hv, hw, add_sub_cancel v 1⟩

/-- **The flip of the incomplete beta function is made at most once and is consistent.**  For
positive parameters one flip is enough for every argument, and unless the argument is the threshold,
its value and that of the flipped arguments add up to one.  This holds whatever function is
evaluated for the arguments that are not flipped, and so in particular for the front factor times
the continued fraction. -/
theorem incompleteBeta_flipsOnce {a b : ℝ} (ha : 0 < a) (hb : 0 < b) :
    (∀ series, FlipsOnce series (flipping? series) (flipping series) a b) ∧
      FlipsOnce betaSeries incompleteBeta? incompleteBeta a b :=
  ⟨flipsOnce_flipping ha hb, flipsOnce_flipping ha hb betaSeries⟩

/-- With parameters 2 and 3 the argument `3 / 10` lies below its threshold, which is `3 / 7`, and
the argument `7 / 10` with the parameters exchanged is flipped once. -/
theorem incompleteBeta_three_tenths : (0 : ℝ) < 2 ∧ (0 : ℝ) < 3 ∧
    (3 / 10 : ℝ) ≠ betaThreshold 2 3 ∧
    incompleteBeta (3 / 10 : ℝ) 2 3 = some (betaSeries (3 / 10) 2 3) ∧
    incompleteBeta? 0 (7 / 10 : ℝ) 3 2 = none ∧
    incompleteBeta? 1 (7 / 10 : ℝ) 3 2 = incompleteBeta (7 / 10) 3 2 ∧
    ∃ v w : ℝ, incompleteBeta (3 / 10) 2 3 = some v ∧ incompleteBeta (7 / 10) 3 2 = some w ∧
      v + w = 1 := by
  have hthreshold : betaThreshold 2 3 = (3 / 7 : ℝ) := by norm_num [betaThreshold]
  have hflipped : betaThreshold 3 2 = (4 / 7 : ℝ) := by norm_num [betaThreshold]
  have hne : (3 / 10 : ℝ) ≠ betaThreshold 2 3 := by norm_num [hthreshold]
  have h23 := (incompleteBeta_flipsOnce (a := 2) (b := 3) two_pos three_pos).2
  have h32 := (incompleteBeta_flipsOnce (a := 3) (b := 2) three_pos two_pos).2
  refine ⟨two_pos, three_pos, hne, ?_, ?_, h32.calls_succ _ 0, ?_⟩
  · rw [h23.recursion, hthreshold]
    norm_num
  · rw [h32.calls_zero, hflipped]
    norm_num
  · have hadd := h23.add_flipped _ hne
    rwa [show (1 : ℝ) - 3 / 10 = 7 / 10 by norm_num] at hadd

end SplitPlot
