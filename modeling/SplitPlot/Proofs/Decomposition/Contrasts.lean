import Mathlib
import SplitPlot.ContrastScores
import SplitPlot.Proofs.Decomposition.Lines

/-!
# The contrasts of several factors lose nothing

The contrasts of one factor, scaled to unit length, are an orthonormal basis of what its levels show
beyond their mean.  For each number of levels that is a statement about a table of whole numbers
(`contrasts_complete`), and it is the only place where the table is looked at.

A combination of contrasts of several factors weights a cell by a product, and its norm is a product
too.  So the sum of its squared scores can be taken one factor at a time (`contrastEnergy_cons`).
Over all sets of factors, with the mean taken over the factors outside the set, the squared scores
add up to the squares of the function that was scored (`sum_joined_mul_contrastEnergy`).  No
function on the cells is orthogonal to all contrasts, whatever the number of factors within
subjects.
-/

namespace SplitPlot

open Finset

/-! ## One factor -/

/-- The squared norm of a contrast of one factor. -/
def levelNorm (levels contrast : ℕ) : ℤ := ∑ i ∈ range levels, levelWeight levels contrast i ^ 2

/-- The scaled contrasts of a factor and its mean form an orthonormal basis. -/
theorem contrasts_complete_rat : ∀ n ∈ List.range' 1 maxWithinLevels, ∀ i ∈ List.range n,
    ∀ j ∈ List.range n,
      ∑ c ∈ range (n - 1), (levelWeight n c i * levelWeight n c j : ℚ) / levelNorm n c =
        (if i = j then 1 else 0) - 1 / n := by
  decide +kernel

theorem contrasts_complete {n i j : ℕ} (hpos : 0 < n) (hle : n ≤ maxWithinLevels) (hi : i < n)
    (hj : j < n) :
    ∑ c ∈ range (n - 1), (levelWeight n c i * levelWeight n c j : ℝ) / levelNorm n c =
      (if i = j then 1 else 0) - 1 / n := by
  have hn : n ∈ List.range' 1 maxWithinLevels := by
    rw [List.mem_range'_1]
    omega
  have h := congrArg (fun q : ℚ => (q : ℝ))
    (contrasts_complete_rat n hn i (List.mem_range.mpr hi) j (List.mem_range.mpr hj))
  push_cast [apply_ite (fun q : ℚ => (q : ℝ))] at h
  exact h

/-- The squared scores of numbers on the contrasts of a factor, with the square of their mean, are
the squares of the numbers. -/
theorem sum_sq_scores {n : ℕ} (hpos : 0 < n) (hle : n ≤ maxWithinLevels) (a : ℕ → ℝ) :
    n * average n a ^ 2 + ∑ c ∈ range (n - 1),
      (∑ i ∈ range n, (levelWeight n c i : ℝ) * a i) ^ 2 / levelNorm n c =
        ∑ i ∈ range n, a i ^ 2 := by
  have hpairs : ∀ c, (∑ i ∈ range n, (levelWeight n c i : ℝ) * a i) ^ 2 / levelNorm n c =
      ∑ i ∈ range n, ∑ j ∈ range n,
        a i * a j * ((levelWeight n c i * levelWeight n c j : ℝ) / levelNorm n c) := by
    intro c
    rw [pow_two, sum_mul_sum, sum_div]
    refine sum_congr rfl fun i _ => ?_
    rw [sum_div]
    exact sum_congr rfl fun j _ => by ring
  have hscores : ∑ c ∈ range (n - 1),
      (∑ i ∈ range n, (levelWeight n c i : ℝ) * a i) ^ 2 / levelNorm n c =
        ∑ i ∈ range n, ∑ j ∈ range n, a i * a j * ((if i = j then 1 else 0) - 1 / n) := by
    simp only [hpairs]
    rw [sum_comm]
    refine sum_congr rfl fun i hi => ?_
    rw [sum_comm]
    refine sum_congr rfl fun j hj => ?_
    rw [← mul_sum, contrasts_complete hpos hle (mem_range.mp hi) (mem_range.mp hj)]
  have hdiag : ∀ i ∈ range n, ∑ j ∈ range n, a i * a j * ((if i = j then 1 else 0) - 1 / n) =
      a i ^ 2 - a i * average n a := by
    intro i hi
    simp only [mul_sub, mul_ite, mul_one, mul_zero, sum_sub_distrib, sum_ite_eq, if_pos hi, average]
    rw [pow_two, mul_div_assoc', mul_sum, sum_div]
    exact congrArg _ (sum_congr rfl fun j _ => by ring)
  rw [hscores, sum_congr rfl hdiag, sum_sub_distrib, ← sum_mul, ← mul_average hpos a]
  ring

/-! ## Several factors -/

theorem contrastWeight_cons (n c i : ℕ) (levels combination cell : List ℕ) :
    contrastWeight (n :: levels) (c :: combination) (i :: cell) =
      levelWeight n c i * contrastWeight levels combination cell := by
  simp only [contrastWeight, ← List.prod_eq_foldl, List.zip_cons_cons, List.map_cons,
    List.prod_cons]

theorem squaredNorm_eq_sum (levels combination : List ℕ) : squaredNorm levels combination =
    ∑ x ∈ positions levels, contrastWeight levels combination x ^ 2 := by
  rw [squaredNorm, ← List.sum_eq_foldl, sum_map_multiIndices]
  exact sum_congr rfl fun x _ => (pow_two _).symm

theorem squaredNorm_nonneg (levels combination : List ℕ) : 0 ≤ squaredNorm levels combination := by
  rw [squaredNorm_eq_sum]
  exact sum_nonneg fun x _ => sq_nonneg _

theorem squaredNorm_cons (n c : ℕ) (levels combination : List ℕ) :
    squaredNorm (n :: levels) (c :: combination) =
      levelNorm n c * squaredNorm levels combination := by
  rw [squaredNorm_eq_sum, squaredNorm_eq_sum, sum_positions_cons, levelNorm, sum_mul]
  refine sum_congr rfl fun i _ => ?_
  rw [mul_sum]
  exact sum_congr rfl fun x _ => by rw [contrastWeight_cons, mul_pow]

/-- The sum of the squared scores of a function on all combinations of contrasts. -/
noncomputable def contrastEnergy (levels : List ℕ) (g : List ℕ → ℝ) : ℝ :=
  ∑ combination ∈ positions (contrastShape levels),
    (∑ x ∈ positions levels, g x * contrastWeight levels combination x) ^ 2 /
      squaredNorm levels combination

theorem contrastEnergy_nil (g : List ℕ → ℝ) : contrastEnergy [] g = g [] ^ 2 := by
  simp [contrastEnergy, contrastShape, contrastWeight, squaredNorm_eq_sum]

/-- The contrasts of the first factor are taken first. -/
theorem contrastEnergy_cons (n : ℕ) (levels : List ℕ) (g : List ℕ → ℝ) :
    contrastEnergy (n :: levels) g = ∑ c ∈ range (n - 1),
      contrastEnergy levels (fun x => ∑ i ∈ range n, (levelWeight n c i : ℝ) * g (i :: x)) /
        levelNorm n c := by
  have hscore : ∀ c combination, ∑ x ∈ positions (n :: levels),
      g x * (contrastWeight (n :: levels) (c :: combination) x : ℝ) =
        ∑ x ∈ positions levels, (∑ i ∈ range n, (levelWeight n c i : ℝ) * g (i :: x)) *
          contrastWeight levels combination x := by
    intro c combination
    rw [sum_positions_cons, sum_comm]
    refine sum_congr rfl fun x _ => ?_
    rw [sum_mul]
    refine sum_congr rfl fun i _ => ?_
    rw [contrastWeight_cons, Int.cast_mul]
    ring
  rw [contrastEnergy, contrastShape, List.map_cons, sum_positions_cons]
  refine sum_congr rfl fun c _ => ?_
  rw [contrastEnergy, sum_div]
  refine sum_congr rfl fun combination _ => ?_
  rw [hscore, squaredNorm_cons, Int.cast_mul, div_div, mul_comm (levelNorm n c : ℝ)]

/-! ## All sets of factors -/

section AllSets

variable {extent : ℕ → ℕ}

/-- Over all sets of factors, the squared scores of the means add up to the squares of the
function. -/
theorem sum_joined_mul_contrastEnergy : ∀ {factors : List ℕ}, factors.Nodup →
    (∀ f ∈ factors, 0 < extent f ∧ extent f ≤ maxWithinLevels) → ∀ g : List ℕ → ℝ,
      ∑ A ∈ factors.toFinset.powerset, (joined (flagged extent factors A) : ℝ) *
        contrastEnergy (droppedShape (flagged extent factors A))
          (lineDrop mean (flagged extent factors A) g) =
        ∑ x ∈ positions (factors.map extent), g x ^ 2
  | [], _, _, g => by simp [droppedShape, contrastEnergy_nil, lineDrop]
  | f :: factors, hnodup, hextent, g => by
    obtain ⟨hf, hnodup⟩ := List.nodup_cons.mp hnodup
    obtain ⟨⟨hpos, hle⟩, hextent⟩ := List.forall_mem_cons.mp hextent
    have ih := sum_joined_mul_contrastEnergy hnodup hextent
    have hmean : ∀ axes : List FlaggedAxis, (joined ((extent f, false) :: axes) : ℝ) *
        contrastEnergy (droppedShape ((extent f, false) :: axes))
          (lineDrop mean ((extent f, false) :: axes) g) =
        extent f * (joined axes * contrastEnergy (droppedShape axes)
          (lineDrop mean axes fun x => average (extent f) fun j => g (j :: x))) := by
      intro axes
      have hline : lineDrop mean ((extent f, false) :: axes) g =
          lineDrop mean axes fun x => average (extent f) fun j => g (j :: x) := by
        ext x
        rw [lineDrop, mean_map_range, ← map_average (isLinearMap_lineDrop axes x)]
      rw [joined_cons_false, Nat.cast_mul, mul_assoc, hline]
      rfl
    have hscores : ∀ axes : List FlaggedAxis, (joined ((extent f, true) :: axes) : ℝ) *
        contrastEnergy (droppedShape ((extent f, true) :: axes))
          (lineDrop mean ((extent f, true) :: axes) g) =
        ∑ c ∈ range (extent f - 1), (joined axes * contrastEnergy (droppedShape axes)
          (lineDrop mean axes fun x =>
            ∑ i ∈ range (extent f), (levelWeight (extent f) c i : ℝ) * g (i :: x))) /
              levelNorm (extent f) c := by
      intro axes
      have hshape : droppedShape ((extent f, true) :: axes) = extent f :: droppedShape axes := rfl
      rw [joined_cons_true, hshape, contrastEnergy_cons, mul_sum]
      refine sum_congr rfl fun c _ => ?_
      rw [mul_div_assoc]
      refine congrArg (fun e => (joined axes : ℝ) * (contrastEnergy (droppedShape axes) e /
        levelNorm (extent f) c)) ?_
      ext x
      rw [map_sum_mul (isLinearMap_lineDrop axes x)]
      rfl
    rw [sum_powerset_flagged_cons extent hf fun axes => (joined axes : ℝ) *
      contrastEnergy (droppedShape axes) (lineDrop mean axes g)]
    simp only [hmean, hscores]
    rw [sum_add_distrib, ← mul_sum, ih, sum_comm]
    simp only [← sum_div, ih]
    rw [List.map_cons, sum_positions_cons, sum_comm (s := range (extent f)), mul_sum]
    simp only [sum_div]
    rw [sum_comm, ← sum_add_distrib]
    exact sum_congr rfl fun x _ => sum_sq_scores hpos hle fun i => g (i :: x)

end AllSets

end SplitPlot
