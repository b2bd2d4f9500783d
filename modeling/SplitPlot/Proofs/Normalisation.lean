import Mathlib
import SplitPlot.Proofs.Mat.Congruent
import SplitPlot.Proofs.Significance

/-!
# The norm of a contrast

A variable of a source with factors within subjects is a contrast of the scores, and the length of
its coefficient vector is a convention.  Another length multiplies the variable by a positive
number, and both error matrices of the source change from `a` to `c a c`, where `c` is the diagonal
matrix of these numbers (`Mat.rescaled`).

The determinant and the product of the diagonal are then multiplied by the same number, the product
of the squares of the diagonal of `c`.  So the determinant as it is read carries this number along
too, also where it is read as zero (`Mat.sscpDet_rescaled`).  Both tests look at the ratio and at
the signs of the two determinants only, and report the same under every convention
(`tests_rescaled`).
-/

namespace SplitPlot

open Finset

namespace Mat

section Scaling

variable {K : Type} [Scalar K]

/-- The diagonal matrix of the first `q` numbers of a sequence. -/
def scaling (q : ℕ) (c : ℕ → K) : Mat K := ofFn q q fun i j => if i = j then c i else 0

/-- A matrix of sums of squares and cross products when each variable is multiplied by a number. -/
def rescaled (q : ℕ) (c : ℕ → K) (a : Mat K) : Mat K := scaling q c * a * scaling q c

variable {q : ℕ} {c : ℕ → K} {a : Mat K}

@[simp] theorem rows_rescaled : (rescaled q c a).rows = q := rfl

theorem isSquare_rescaled : (rescaled q c a).IsSquare := rfl

end Scaling

variable {q : ℕ} {c : ℕ → ℝ} {a : Mat ℝ}

theorem square_scaling : (scaling q c).square q = Matrix.diagonal fun i : Fin q => c i := by
  ext i j
  rw [square_apply, scaling, get_ofFn _ i.isLt j.isLt, Matrix.diagonal_apply]
  simp only [Fin.ext_iff]

theorem square_rescaled (hcols : a.cols = q) : (rescaled q c a).square q =
    (Matrix.diagonal fun i : Fin q => c i) * a.square q * Matrix.diagonal fun i : Fin q => c i := by
  have hleft : (scaling q c * a).square q = (scaling q c).square q * a.square q :=
    square_mul rfl rfl hcols
  have hboth : (scaling q c * a * scaling q c).square q =
      (scaling q c * a).square q * (scaling q c).square q := square_mul rfl hcols rfl
  rw [rescaled, hboth, hleft, square_scaling]

section Square

variable (hrows : a.rows = q) (hcols : a.cols = q)

include hrows hcols

theorem det_rescaled : (rescaled q c a).det = (∏ i ∈ range q, c i ^ 2) * a.det := by
  rw [det_eq isSquare_rescaled, det_eq (hrows.trans hcols.symm), rows_rescaled, hrows,
    square_rescaled hcols, Matrix.det_mul, Matrix.det_mul, Matrix.det_diagonal, prod_pow,
    prod_range, pow_two, mul_right_comm]

theorem product_diagonal_rescaled :
    product (rescaled q c a).diagonal = (∏ i ∈ range q, c i ^ 2) * product a.diagonal := by
  rw [product_diagonal, product_diagonal, rows_rescaled, hrows, square_rescaled hcols, prod_range,
    ← prod_mul_distrib]
  refine prod_congr rfl fun i _ => ?_
  rw [Matrix.mul_diagonal, Matrix.diagonal_mul, pow_two, mul_right_comm]

/-- The determinant as it is read carries the squares of all factors, whether or not it is read as
zero. -/
theorem sscpDet_rescaled (hc : ∀ i < q, 0 < c i) :
    (rescaled q c a).sscpDet = (∏ i ∈ range q, c i ^ 2) * a.sscpDet :=
  sscpDet_mul (prod_pos fun i hi => pow_pos (hc i (mem_range.mp hi)) 2) (det_rescaled hrows hcols)
    (product_diagonal_rescaled hrows hcols)

end Square

end Mat

/-- **The norm of a contrast does not affect any test.**  If the variables are multiplied by
positive numbers, then the determinant that is read off a matrix of any order is multiplied by the
product of their squares.  The tests of two models report their sums of squares multiplied by that
number, and the same statistic, probability, Wilks' Lambda, chi-square, degrees of freedom and
reason why a test was not carried out. -/
theorem tests_rescaled {q : ℕ} {c : ℕ → ℝ} (hc : ∀ i < q, 0 < c i) :
    (∀ a : Mat ℝ, a.rows = q → a.cols = q → ∃ value, a.sscpDeterminant = .ok value ∧
      (a.rescaled q c).sscpDeterminant = .ok ((∏ i ∈ range q, c i ^ 2) * value)) ∧
    ∀ full restricted : Mat ℝ, full.rows = q → full.cols = q → restricted.rows = q →
      restricted.cols = q → ∃ m m', ErrorMatrices.ofMats full restricted = .ok m ∧
        ErrorMatrices.ofMats (full.rescaled q c) (restricted.rescaled q c) = .ok m' ∧
        (∀ dfNum dfDen, Significance.withinSubjects m' dfNum dfDen =
          (Significance.withinSubjects m dfNum dfDen).rescale (∏ i ∈ range q, c i ^ 2)) ∧
        ∀ cells subjects dfNum test, Significance.multivariate m' cells subjects dfNum test =
          (Significance.multivariate m cells subjects dfNum test).rescale
            (∏ i ∈ range q, c i ^ 2) := by
  have hpos : 0 < ∏ i ∈ range q, c i ^ 2 := prod_pos fun i hi => pow_pos (hc i (mem_range.mp hi)) 2
  refine ⟨fun a hrows hcols => ⟨a.sscpDet, if_pos (hrows.trans hcols.symm), ?_⟩,
    fun full restricted hrows hcols hrows' hcols' => ?_⟩
  · rw [Mat.sscpDeterminant, if_pos Mat.isSquare_rescaled, Mat.sscpDet_rescaled hrows hcols hc]
  · have hfull := Mat.sscpDet_rescaled hrows hcols hc
    have hrestricted := Mat.sscpDet_rescaled hrows' hcols' hc
    have hsq : full.IsSquare ∧ restricted.IsSquare :=
      ⟨hrows.trans hcols.symm, hrows'.trans hcols'.symm⟩
    have hsq' : (full.rescaled q c).IsSquare ∧ (restricted.rescaled q c).IsSquare :=
      ⟨Mat.isSquare_rescaled, Mat.isSquare_rescaled⟩
    refine ⟨⟨full, restricted, hsq.1, hsq.2⟩, ⟨_, _, hsq'.1, hsq'.2⟩, dif_pos hsq, dif_pos hsq', ?_,
      ?_⟩
    · exact Significance.withinSubjects_mul hpos hfull hrestricted
    · exact Significance.multivariate_mul hpos hfull hrestricted hrows.symm

/-- The determinant of a regular matrix of order two. -/
theorem Mat.sscpDet_ofRows_two {x y z w : ℝ} (hbound : 0 < x * w)
    (hdet : x * w * Mat.singularityTolerance < x * w - y * z) :
    (Mat.ofRows [[x, y], [z, w]]).sscpDet = x * w - y * z := by
  have hsquare : (Mat.ofRows [[x, y], [z, w]]).square 2 = !![x, y; z, w] := by
    ext i j
    rw [Mat.square_apply, Mat.get_ofRows i.isLt j.isLt]
    fin_cases i <;> fin_cases j <;> rfl
  have hvalue : (Mat.ofRows [[x, y], [z, w]]).det = x * w - y * z := by
    rw [← Matrix.det_fin_two_of, ← hsquare]
    exact Mat.det_eq rfl
  have hdiagonal : product (Mat.ofRows [[x, y], [z, w]]).diagonal = x * w := by
    rw [Mat.product_diagonal]
    change ∏ i : Fin 2, Mat.square _ 2 i i = _
    rw [hsquare, Fin.prod_univ_two]
    rfl
  have hpos : 0 < x * w - y * z := (mul_pos hbound Mat.singularityTolerance_pos).trans hdet
  rw [Mat.sscpDet, hvalue, hdiagonal, if_neg]
  rintro (h | h | h)
  exacts [hpos.not_ge h, hbound.not_ge h, hdet.not_ge h]

/-- Two variables that are multiplied by two and by three. -/
theorem tests_rescaled_two : (∀ i < 2, 0 < if i = 0 then (2 : ℝ) else 3) ∧
    ∃ m m' : ErrorMatrices ℝ,
      ErrorMatrices.ofMats (.ofRows [[2, 1], [1, 2]]) (.ofRows [[5, 1], [1, 2]]) = .ok m ∧
      ErrorMatrices.ofMats
        (.rescaled 2 (fun i => if i = 0 then 2 else 3) (.ofRows [[2, 1], [1, 2]]))
        (.rescaled 2 (fun i => if i = 0 then 2 else 3) (.ofRows [[5, 1], [1, 2]])) = .ok m' ∧
      (Significance.withinSubjects m' 2 1).ss = 216 ∧
      (Significance.withinSubjects m' 2 1).errorSs = 108 ∧
      (Significance.withinSubjects m 2 1).f = 1 ∧ (Significance.withinSubjects m' 2 1).f = 1 := by
  have hc : ∀ i < 2, 0 < if i = 0 then (2 : ℝ) else 3 := fun i _ => by split <;> norm_num
  have htolerance : (Mat.singularityTolerance : ℝ) = 1e-12 := rfl
  obtain ⟨m, m', hm, hm', hwithin, -⟩ := (tests_rescaled hc).2 (.ofRows [[2, 1], [1, 2]])
    (.ofRows [[5, 1], [1, 2]]) rfl rfl rfl rfl
  have hfull : m.fullDet = 2 * 2 - 1 * 1 := by
    cases hm
    exact Mat.sscpDet_ofRows_two (by norm_num) (by norm_num [htolerance])
  have hrestricted : m.restrictedDet = 5 * 2 - 1 * 1 := by
    cases hm
    exact Mat.sscpDet_ofRows_two (by norm_num) (by norm_num [htolerance])
  refine ⟨hc, m, m', hm, hm', ?_⟩
  rw [hwithin, Significance.withinSubjects, hfull, hrestricted,
    Significance.univariate_eq (by norm_num) (by norm_num) (by norm_num)]
  simp only [Significance.rescale, Significance.untested, prod_range_succ, prod_range_zero]
  norm_num

end SplitPlot
