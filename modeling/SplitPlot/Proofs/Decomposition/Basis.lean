import Mathlib
import SplitPlot.Proofs.Decomposition.Contrasts

/-!
# Contrasts as functions on all cells

A combination of contrasts of some factors weights the cells of these factors, after the others have
been averaged out.  It is read here as a function on all cells within subjects, divided by its norm
(`contrastAt`), so that a contrast score is a sum over the cells with this function as the weight
(`sum_droppedShape`).  A function of several axes is a product of functions of one axis, and each
fact about all combinations is the same fact about one factor, carried on by induction on the axes.

* `sum_contrastAt_mul_contrastAt`: the combinations are orthogonal, and all of one length.
* `sum_contrastAt_mul_score`: to score a function on every combination and to add the combinations
  up again, each times its score, leaves the part of the function that belongs to the factors.

The two say that the combinations are an orthogonal basis of the functions that belong to the
factors.
-/

namespace SplitPlot

open Finset

/-! ## One factor -/

/-- The contrasts of a factor are orthogonal to one another. -/
theorem contrasts_orthogonal : ∀ n ∈ List.range' 1 maxWithinLevels, ∀ c ∈ List.range (n - 1),
    ∀ e ∈ List.range (n - 1), c ≠ e →
      ∑ i ∈ range n, levelWeight n c i * levelWeight n e i = 0 := by
  decide +kernel

theorem contrasts_sum_zero : ∀ n ∈ List.range' 1 maxWithinLevels, ∀ c ∈ List.range (n - 1),
    ∑ i ∈ range n, levelWeight n c i = 0 := by
  decide +kernel

theorem levelNorm_pos_table : ∀ n ∈ List.range' 1 maxWithinLevels, ∀ c ∈ List.range (n - 1),
    0 < levelNorm n c := by
  decide +kernel

/-- A contrast of a factor, scaled to unit length. -/
noncomputable def unitContrast (n c i : ℕ) : ℝ := levelWeight n c i / √(levelNorm n c)

section OneFactor

variable {n : ℕ} (hpos : 0 < n) (hle : n ≤ maxWithinLevels)

include hpos hle

theorem mem_table : n ∈ List.range' 1 maxWithinLevels := by
  rw [List.mem_range'_1]
  omega

theorem levelNorm_pos {c : ℕ} (hc : c < n - 1) : (0 : ℝ) < levelNorm n c := by
  exact Int.cast_pos.mpr (levelNorm_pos_table n (mem_table hpos hle) c (List.mem_range.mpr hc))

theorem sum_unitContrast_mul {c e : ℕ} (hc : c < n - 1) (he : e < n - 1) :
    ∑ i ∈ range n, unitContrast n c i * unitContrast n e i = if c = e then 1 else 0 := by
  have hterm : ∀ i, unitContrast n c i * unitContrast n e i =
      ((levelWeight n c i * levelWeight n e i : ℤ) : ℝ) / (√(levelNorm n c) * √(levelNorm n e)) :=
    fun i => by rw [unitContrast, unitContrast, div_mul_div_comm, Int.cast_mul]
  simp only [hterm]
  rw [← sum_div, ← Int.cast_sum]
  split_ifs with h
  · subst h
    have hnorm : ∑ i ∈ range n, levelWeight n c i * levelWeight n c i = levelNorm n c :=
      sum_congr rfl fun i _ => (pow_two _).symm
    rw [hnorm, Real.mul_self_sqrt (levelNorm_pos hpos hle hc).le,
      div_self (levelNorm_pos hpos hle hc).ne']
  · rw [contrasts_orthogonal n (mem_table hpos hle) c (List.mem_range.mpr hc) e
      (List.mem_range.mpr he) h, Int.cast_zero, zero_div]

theorem sum_unitContrast_level {c : ℕ} (hc : c < n - 1) :
    ∑ i ∈ range n, unitContrast n c i = 0 := by
  simp only [unitContrast]
  rw [← sum_div, ← Int.cast_sum,
    contrasts_sum_zero n (mem_table hpos hle) c (List.mem_range.mpr hc), Int.cast_zero, zero_div]

/-- What the contrasts of a factor leave out is the mean. -/
theorem sum_unitContrast {i j : ℕ} (hi : i < n) (hj : j < n) :
    ∑ c ∈ range (n - 1), unitContrast n c i * unitContrast n c j =
      (if i = j then 1 else 0) - (n : ℝ)⁻¹ := by
  rw [inv_eq_one_div, ← contrasts_complete hpos hle hi hj]
  refine sum_congr rfl fun c hc => ?_
  rw [unitContrast, unitContrast, div_mul_div_comm,
    Real.mul_self_sqrt (levelNorm_pos hpos hle (mem_range.mp hc)).le]

/-- What the contrasts of a factor see of a function is the function less its mean. -/
theorem sum_unitContrast_mul_sum {i : ℕ} (hi : i < n) (p : ℕ → ℝ) :
    ∑ c ∈ range (n - 1), unitContrast n c i * ∑ j ∈ range n, unitContrast n c j * p j =
      p i - average n p := by
  have hswap : ∑ c ∈ range (n - 1), unitContrast n c i * ∑ j ∈ range n, unitContrast n c j * p j =
      ∑ j ∈ range n, ((if i = j then 1 else 0) - (n : ℝ)⁻¹) * p j := by
    simp only [mul_sum]
    rw [sum_comm]
    refine sum_congr rfl fun j hj => ?_
    rw [← sum_unitContrast hpos hle hi (mem_range.mp hj), sum_mul]
    exact sum_congr rfl fun c _ => (mul_assoc _ _ _).symm
  rw [hswap, average_eq_sum]
  simp only [sub_mul, ite_mul, one_mul, zero_mul, sum_sub_distrib, sum_ite_eq,
    if_pos (mem_range.mpr hi)]

end OneFactor

/-! ## Several factors -/

theorem squaredNorm_pos : ∀ {levels combination : List ℕ},
    (∀ n ∈ levels, 0 < n ∧ n ≤ maxWithinLevels) → InBounds combination (contrastShape levels) →
      0 < squaredNorm levels combination
  | [], [], _, _ => by decide
  | n :: levels, k :: combination, hlevels, hcombination => by
    obtain ⟨hn, hlevels⟩ := List.forall_mem_cons.mp hlevels
    rw [squaredNorm_cons]
    refine mul_pos ?_ (squaredNorm_pos hlevels hcombination.2)
    exact Int.cast_pos.mp (levelNorm_pos hn.1 hn.2 hcombination.1)

/-- The norm of the weights of a combination of contrasts is positive. -/
theorem contrastNorm_pos {levels combination : List ℕ}
    (hlevels : ∀ n ∈ levels, 0 < n ∧ n ≤ maxWithinLevels)
    (hcombination : combination ∈ multiIndices (contrastShape levels)) :
    (0 : ℝ) < contrastNorm levels combination :=
  Real.sqrt_pos.mpr (Int.cast_pos.mpr (squaredNorm_pos hlevels (mem_multiIndices.mp hcombination)))

/-- The levels of a position along the axes that are kept. -/
def keptLevels : List FlaggedAxis → List ℕ → List ℕ
  | [], _ => []
  | _ :: _, [] => []
  | (_, true) :: axes, i :: x => i :: keptLevels axes x
  | (_, false) :: axes, _ :: x => keptLevels axes x

/-- A weighted sum over the cells of a reduced table is one over all cells. -/
theorem sum_droppedShape : ∀ (axes : List FlaggedAxis) (g h : List ℕ → ℝ),
    ∑ x ∈ positions (droppedShape axes), lineDrop mean axes g x * h x =
      (∑ z ∈ positions (axes.map (·.1)), g z * h (keptLevels axes z)) / joined axes
  | [], g, h => by simp [droppedShape, lineDrop, keptLevels]
  | (n, true) :: axes, g, h => by
    have hshape : droppedShape ((n, true) :: axes) = n :: droppedShape axes := rfl
    rw [hshape, sum_positions_cons, List.map_cons, sum_positions_cons, joined_cons_true, sum_div]
    exact sum_congr rfl fun i _ =>
      sum_droppedShape axes (fun x => g (i :: x)) fun x => h (i :: x)
  | (n, false) :: axes, g, h => by
    have hshape : droppedShape ((n, false) :: axes) = droppedShape axes := rfl
    have hline : ∀ x, lineDrop mean ((n, false) :: axes) g x * h x =
        ∑ i ∈ range n, (n : ℝ)⁻¹ * (lineDrop mean axes (fun y => g (i :: y)) x * h x) := fun x => by
      rw [lineDrop, mean_map_range, average_eq_sum, sum_mul]
      exact sum_congr rfl fun i _ => mul_assoc _ _ _
    simp only [hline]
    rw [hshape, sum_comm, List.map_cons, sum_positions_cons, joined_cons_false, Nat.cast_mul,
      sum_div]
    refine sum_congr rfl fun i _ => ?_
    rw [← mul_sum, sum_droppedShape axes (fun y => g (i :: y)) h, ← div_div, div_right_comm,
      inv_mul_eq_div]
    rfl

/-- A combination of contrasts, scaled by its norm, at a position of all axes. -/
noncomputable def contrastAt (axes : List FlaggedAxis) (combination z : List ℕ) : ℝ :=
  contrastWeight (droppedShape axes) combination (keptLevels axes z) /
    contrastNorm (droppedShape axes) combination

theorem contrastAt_cons_true (n c i : ℕ) (axes : List FlaggedAxis) (combination z : List ℕ) :
    contrastAt ((n, true) :: axes) (c :: combination) (i :: z) =
      unitContrast n c i * contrastAt axes combination z := by
  have hshape : droppedShape ((n, true) :: axes) = n :: droppedShape axes := rfl
  have hnorm : (contrastNorm (n :: droppedShape axes) (c :: combination) : ℝ) =
      √(levelNorm n c) * contrastNorm (droppedShape axes) combination := by
    show √((squaredNorm (n :: droppedShape axes) (c :: combination) : ℤ) : ℝ) = _
    rw [squaredNorm_cons, Int.cast_mul, Real.sqrt_mul' _ (Int.cast_nonneg (squaredNorm_nonneg _ _))]
    rfl
  rw [contrastAt, hshape, hnorm, keptLevels, contrastWeight_cons, Int.cast_mul, ← div_mul_div_comm]
  rfl

theorem contrastAt_cons_false (n i : ℕ) (axes : List FlaggedAxis) (combination z : List ℕ) :
    contrastAt ((n, false) :: axes) combination (i :: z) = contrastAt axes combination z := rfl

theorem contrastAt_nil : contrastAt [] [] [] = 1 := by
  have hweight : contrastWeight [] [] [] = 1 := rfl
  have hnorm : squaredNorm [] [] = 1 := rfl
  show ((contrastWeight [] [] [] : ℤ) : ℝ) / √((squaredNorm [] [] : ℤ) : ℝ) = 1
  rw [hweight, hnorm, Int.cast_one, Real.sqrt_one, div_one]

/-- The combinations of contrasts of the flagged axes. -/
def combinations (axes : List FlaggedAxis) : Finset (List ℕ) :=
  positions (contrastShape (droppedShape axes))

@[simp] theorem combinations_nil : combinations [] = {[]} := positions_nil

theorem sum_combinations_cons_true (n : ℕ) (axes : List FlaggedAxis) (g : List ℕ → ℝ) :
    ∑ b ∈ combinations ((n, true) :: axes), g b =
      ∑ c ∈ range (n - 1), ∑ b ∈ combinations axes, g (c :: b) :=
  sum_positions_cons (n - 1) (contrastShape (droppedShape axes)) g

theorem sum_combinations_cons_false (n : ℕ) (axes : List FlaggedAxis) (g : List ℕ → ℝ) :
    ∑ b ∈ combinations ((n, false) :: axes), g b = ∑ b ∈ combinations axes, g b := rfl

/-- Different combinations are orthogonal, and the square of each is the number of joined cells. -/
theorem sum_contrastAt_mul_contrastAt : ∀ {axes : List FlaggedAxis},
    (∀ a ∈ axes, 0 < a.1 ∧ a.1 ≤ maxWithinLevels) → ∀ {b e : List ℕ}, b ∈ combinations axes →
      e ∈ combinations axes → ∑ z ∈ positions (axes.map (·.1)), contrastAt axes b z *
        contrastAt axes e z = if b = e then (joined axes : ℝ) else 0
  | [], _, b, e, hb, he => by
    rw [combinations_nil, mem_singleton] at hb he
    rw [hb, he, List.map_nil, positions_nil, sum_singleton, contrastAt_nil, if_pos rfl, mul_one,
      joined_nil, Nat.cast_one]
  | (n, true) :: axes, haxes, b, e, hb, he => by
    obtain ⟨⟨hpos, hle⟩, haxes⟩ := List.forall_mem_cons.mp haxes
    match b, e, mem_positions.mp hb, mem_positions.mp he with
    | c :: b, c' :: e, ⟨hc, hb⟩, ⟨hc', he⟩ =>
      have ih := sum_contrastAt_mul_contrastAt haxes (mem_positions.mpr hb) (mem_positions.mpr he)
      have hsplit : ∀ i, ∑ z ∈ positions (axes.map (·.1)),
          contrastAt ((n, true) :: axes) (c :: b) (i :: z) *
            contrastAt ((n, true) :: axes) (c' :: e) (i :: z) =
          unitContrast n c i * unitContrast n c' i * if b = e then (joined axes : ℝ) else 0 := by
        intro i
        rw [← ih, mul_sum]
        refine sum_congr rfl fun z _ => ?_
        rw [contrastAt_cons_true, contrastAt_cons_true, mul_mul_mul_comm]
      rw [List.map_cons, sum_positions_cons, sum_congr rfl fun i _ => hsplit i, ← sum_mul,
        sum_unitContrast_mul hpos hle hc hc', joined_cons_true, ite_zero_mul_ite_zero, one_mul]
      exact if_congr List.cons_eq_cons.symm rfl rfl
  | (n, false) :: axes, haxes, b, e, hb, he => by
    obtain ⟨-, haxes⟩ := List.forall_mem_cons.mp haxes
    have ih := sum_contrastAt_mul_contrastAt haxes hb he
    have hsplit : ∀ i ∈ range n, ∑ z ∈ positions (axes.map (·.1)),
        contrastAt ((n, false) :: axes) b (i :: z) * contrastAt ((n, false) :: axes) e (i :: z) =
          if b = e then (joined axes : ℝ) else 0 := fun i _ => ih
    rw [List.map_cons, sum_positions_cons, sum_congr rfl hsplit, sum_const, card_range,
      nsmul_eq_mul, joined_cons_false, Nat.cast_mul, mul_ite, mul_zero]

/-- The score of a function on a combination, times the number of joined cells. -/
noncomputable def contrastScore (axes : List FlaggedAxis) (g : List ℕ → ℝ) (b : List ℕ) : ℝ :=
  ∑ y ∈ positions (axes.map (·.1)), contrastAt axes b y * g y

theorem contrastScore_cons_true (n c : ℕ) (axes : List FlaggedAxis) (g : List ℕ → ℝ) (b : List ℕ) :
    contrastScore ((n, true) :: axes) g (c :: b) =
      ∑ j ∈ range n, unitContrast n c j * contrastScore axes (fun y => g (j :: y)) b := by
  rw [contrastScore, List.map_cons, sum_positions_cons]
  refine sum_congr rfl fun j _ => ?_
  rw [contrastScore, mul_sum]
  exact sum_congr rfl fun y _ => by rw [contrastAt_cons_true, mul_assoc]

theorem contrastScore_cons_false {n : ℕ} (hn : 0 < n) (axes : List FlaggedAxis) (g : List ℕ → ℝ)
    (b : List ℕ) : contrastScore ((n, false) :: axes) g b =
      n * contrastScore axes (fun y => average n fun j => g (j :: y)) b := by
  rw [contrastScore, contrastScore, List.map_cons, sum_positions_cons, sum_comm, mul_sum]
  refine sum_congr rfl fun y _ => ?_
  rw [mul_left_comm, mul_average hn, mul_sum]
  rfl

theorem isLinearMap_contrastScore (axes : List FlaggedAxis) (b : List ℕ) :
    IsLinearMap ℝ fun g : List ℕ → ℝ => contrastScore axes g b where
  map_add g h := by simp only [contrastScore, Pi.add_apply, mul_add, sum_add_distrib]
  map_smul c g := by simp only [contrastScore, Pi.smul_apply, smul_eq_mul, mul_sum, mul_left_comm]

/-- The score of the deviation from a mean is the deviation of the score. -/
theorem contrastScore_sub_average (n : ℕ) (axes : List FlaggedAxis) (g : ℕ → List ℕ → ℝ) (i : ℕ)
    (b : List ℕ) : contrastScore axes (fun y => g i y - average n fun j => g j y) b =
      contrastScore axes (g i) b - average n fun j => contrastScore axes (g j) b := by
  rw [← map_average (isLinearMap_contrastScore axes b)]
  exact (isLinearMap_contrastScore axes b).map_sub _ _

/-- The part of a function that belongs to the flagged axes is the sum of the combinations, each
times the score of the function on it. -/
theorem sum_contrastAt_mul_score : ∀ {axes : List FlaggedAxis},
    (∀ a ∈ axes, 0 < a.1 ∧ a.1 ≤ maxWithinLevels) → ∀ (g : List ℕ → ℝ) {z : List ℕ},
      z ∈ positions (axes.map (·.1)) → ∑ b ∈ combinations axes, contrastAt axes b z *
        contrastScore axes g b = joined axes * pureLine axes g z
  | [], _, g, z, hz => by
    rw [List.map_nil, positions_nil, mem_singleton] at hz
    rw [hz, combinations_nil, sum_singleton, contrastScore, List.map_nil, positions_nil,
      sum_singleton, contrastAt_nil, one_mul, joined_nil, Nat.cast_one, pureLine]
  | (n, true) :: axes, haxes, g, z, hz => by
    obtain ⟨⟨hpos, hle⟩, haxes⟩ := List.forall_mem_cons.mp haxes
    cases z with
    | nil => exact (mem_positions.mp hz).elim
    | cons i z =>
      obtain ⟨hi, hz⟩ := mem_positions.mp hz
      have hscores : ∀ b ∈ combinations axes, ∑ c ∈ range (n - 1),
          contrastAt ((n, true) :: axes) (c :: b) (i :: z) *
            contrastScore ((n, true) :: axes) g (c :: b) =
          contrastAt axes b z *
            contrastScore axes (fun y => g (i :: y) - average n fun j => g (j :: y)) b := by
        intro b _
        have hone := sum_unitContrast_mul_sum (n := n) hpos hle hi fun j =>
          contrastScore axes (fun y => g (j :: y)) b
        rw [contrastScore_sub_average n axes (fun j y => g (j :: y)), ← hone, mul_sum]
        refine sum_congr rfl fun c _ => ?_
        rw [contrastAt_cons_true, contrastScore_cons_true, mul_comm (unitContrast n c i), mul_assoc]
      rw [sum_combinations_cons_true, sum_comm, sum_congr rfl hscores,
        sum_contrastAt_mul_score haxes _ (mem_positions.mpr hz), joined_cons_true]
      rfl
  | (n, false) :: axes, haxes, g, z, hz => by
    obtain ⟨⟨hpos, -⟩, haxes⟩ := List.forall_mem_cons.mp haxes
    cases z with
    | nil => exact (mem_positions.mp hz).elim
    | cons i z =>
      obtain ⟨hi, hz⟩ := mem_positions.mp hz
      have hscores : ∀ b ∈ combinations axes, contrastAt ((n, false) :: axes) b (i :: z) *
          contrastScore ((n, false) :: axes) g b =
          n * (contrastAt axes b z *
            contrastScore axes (fun y => average n fun j => g (j :: y)) b) := fun b _ => by
        rw [contrastScore_cons_false hpos, contrastAt_cons_false, mul_left_comm]
      rw [sum_combinations_cons_false, sum_congr rfl hscores, ← mul_sum,
        sum_contrastAt_mul_score haxes _ (mem_positions.mpr hz), joined_cons_false, Nat.cast_mul,
        mul_assoc]
      rfl

/-- A combination belongs to its factors alone. -/
theorem pureLine_contrastAt {axes : List FlaggedAxis}
    (haxes : ∀ a ∈ axes, 0 < a.1 ∧ a.1 ≤ maxWithinLevels) {b z : List ℕ}
    (hb : b ∈ combinations axes) (hz : z ∈ positions (axes.map (·.1))) :
    pureLine axes (contrastAt axes b) z = contrastAt axes b z := by
  have hjoined : (joined axes : ℝ) ≠ 0 :=
    (Nat.cast_pos.mpr (joined_pos fun a ha => (haxes a ha).1)).ne'
  refine mul_left_cancel₀ hjoined ?_
  rw [← sum_contrastAt_mul_score haxes _ hz,
    sum_congr rfl fun e he => by rw [contrastScore, sum_contrastAt_mul_contrastAt haxes he hb]]
  simp only [mul_ite, mul_zero, sum_ite_eq', if_pos hb]
  exact mul_comm _ _

end SplitPlot
