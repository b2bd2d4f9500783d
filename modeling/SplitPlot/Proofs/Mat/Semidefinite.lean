import Mathlib
import SplitPlot.ErrorMatrices
import SplitPlot.Proofs.Mat.Determinant

/-!
# Determinants of nested models

The error matrix of a model is positive semidefinite, and so is what a restriction of the model adds
to it.  Therefore the restriction never makes the determinant smaller (`det_le_det_add`), and if the
full model leaves a regular matrix, it makes it larger unless it adds nothing (`det_add_eq_iff`).

## Reading a determinant

The determinant of an error matrix is not taken as it is: `Mat.sscpDet` reads it as zero where it is
small relative to the product of the diagonal (`Mat.NearSingular`).  Each of the two matrices of a
comparison is measured by its own diagonal, so the order of the determinants is not always the order
of their readings.  It is reversed exactly if the restricted matrix is near singular and the full
one is not (`Nested.restrictedDet_lt_fullDet_iff`): a large addition in a single direction makes all
columns of the scores nearly parallel, and the restricted matrix near singular.  A single variable
has no room for that (`Nested.fullDet_le_restrictedDet_of_variableCount`).
-/

namespace SplitPlot

open Finset

/-! ## Growth of the determinant -/

section Growth

open Matrix

variable {n : Type} [Fintype n] [DecidableEq n] {A H : Matrix n n ℝ}

/-- The determinant after a matrix of rank one has been added. -/
theorem det_add_rankOne (hA : IsUnit A.det) (v : n → ℝ) :
    (A + vecMulVec v v).det = A.det * (1 + v ⬝ᵥ (A⁻¹ *ᵥ v)) := by
  rw [vecMulVec_eq Unit, det_add_replicateCol_mul_replicateRow hA]
  refine congrArg (A.det * ·) ?_
  rw [det_unique, Matrix.add_apply, one_apply_eq, Matrix.mul_assoc, ← replicateCol_mulVec,
    replicateRow_mul_replicateCol_apply]

omit [DecidableEq n] in
theorem posSemidef_rankOne (v : n → ℝ) : (vecMulVec v v).PosSemidef :=
  posSemidef_vecMulVec_self_star v

theorem det_lt_det_add_rankOne (hA : A.PosDef) {v : n → ℝ} (hv : v ≠ 0) :
    A.det < (A + vecMulVec v v).det := by
  have hpos : 0 < v ⬝ᵥ (A⁻¹ *ᵥ v) := hA.inv.dotProduct_mulVec_pos hv
  rw [det_add_rankOne hA.det_pos.ne'.isUnit]
  exact lt_mul_of_one_lt_right hA.det_pos (lt_add_of_pos_right 1 hpos)

theorem det_le_det_add_rankOne (hA : A.PosSemidef) (v : n → ℝ) :
    A.det ≤ (A + vecMulVec v v).det := by
  by_cases h0 : A.det = 0
  · exact h0.trans_le (hA.add (posSemidef_rankOne v)).det_nonneg
  · have hpos : 0 ≤ v ⬝ᵥ (A⁻¹ *ᵥ v) := hA.inv.dotProduct_mulVec_nonneg v
    rw [det_add_rankOne (Ne.isUnit h0)]
    exact le_mul_of_one_le_right hA.det_nonneg (le_add_of_nonneg_right hpos)

theorem det_le_det_add_sum (hA : A.PosSemidef) {ι : Type} (v : ι → n → ℝ) (l : Finset ι) :
    A.det ≤ (A + ∑ k ∈ l, vecMulVec (v k) (v k)).det := by
  classical
  induction l using Finset.induction_on with
  | empty => rw [sum_empty, add_zero]
  | insert k l hk ih =>
    have hpsd : (A + ∑ k ∈ l, vecMulVec (v k) (v k)).PosSemidef :=
      hA.add (posSemidef_sum _ fun k _ => posSemidef_rankOne (v k))
    rw [sum_insert hk, add_comm (vecMulVec _ _), ← add_assoc]
    exact ih.trans (det_le_det_add_rankOne hpsd _)

/-- Adding a positive semidefinite matrix never makes the determinant smaller. -/
theorem det_le_det_add (hA : A.PosSemidef) (hH : H.PosSemidef) : A.det ≤ (A + H).det := by
  obtain ⟨m, v, rfl⟩ := posSemidef_iff_eq_sum_vecMulVec.mp hH
  exact det_le_det_add_sum hA v univ

/-- To a regular matrix only zero can be added without a change of the determinant. -/
theorem det_add_eq_iff (hA : A.PosDef) (hH : H.PosSemidef) : (A + H).det = A.det ↔ H = 0 := by
  refine ⟨fun h => ?_, fun h => by rw [h, add_zero]⟩
  obtain ⟨m, v, rfl⟩ := posSemidef_iff_eq_sum_vecMulVec.mp hH
  refine sum_eq_zero fun k _ => ?_
  by_contra hne
  have hv : v k ≠ 0 := fun h0 => hne (by rw [h0, star_zero, vecMulVec_zero])
  have hlt := det_lt_det_add_rankOne hA hv
  have hle := det_le_det_add_sum (hA.posSemidef.add (posSemidef_rankOne (v k))) v (univ.erase k)
  have hsplit : A + vecMulVec (v k) (v k) + ∑ k ∈ univ.erase k, vecMulVec (v k) (v k) =
      A + ∑ k, vecMulVec (v k) (star (v k)) := by
    rw [add_assoc, add_sum_erase _ (fun k => vecMulVec (v k) (v k)) (mem_univ k)]
    rfl
  rw [hsplit, h] at hle
  exact absurd hlt (not_lt.mpr hle)

end Growth

/-! ## Reading a determinant -/

namespace Mat

/-- The determinant is so small relative to the product of the diagonal that it is read as zero. -/
def NearSingular (a : Mat ℝ) : Prop := a.det ≤ product a.diagonal * singularityTolerance

theorem singularityTolerance_pos : 0 < (singularityTolerance : ℝ) := by
  show (0 : ℝ) < 1e-12
  norm_num

theorem singularityTolerance_lt_one : (singularityTolerance : ℝ) < 1 := by
  show (1e-12 : ℝ) < 1
  norm_num

variable {a : Mat ℝ}

theorem product_diagonal (a : Mat ℝ) :
    product a.diagonal = ∏ i : Fin a.rows, a.square a.rows i i := by
  rw [product_eq_prod, diagonal, ← List.prod_toFinset _ List.nodup_range, List.toFinset_range,
    prod_range]
  rfl

theorem product_diagonal_nonneg (h : (a.square a.rows).PosSemidef) : 0 ≤ product a.diagonal := by
  rw [product_diagonal]
  exact prod_nonneg fun i _ => h.diag_nonneg

theorem det_nonneg (hsq : a.IsSquare) (h : (a.square a.rows).PosSemidef) : 0 ≤ a.det := by
  rw [det_eq hsq]
  exact h.det_nonneg

/-- A regular matrix has a positive diagonal. -/
theorem product_diagonal_pos (hsq : a.IsSquare) (h : (a.square a.rows).PosSemidef)
    (hdet : 0 < a.det) : 0 < product a.diagonal := by
  rw [det_eq hsq] at hdet
  have hpos := h.posDef_iff_det_ne_zero.mpr hdet.ne'
  rw [product_diagonal]
  exact prod_pos fun i _ => hpos.diag_pos

theorem sscpDet_nonneg (a : Mat ℝ) : 0 ≤ a.sscpDet := by
  rw [sscpDet]
  split
  · exact le_rfl
  · next h => exact (not_le.mp fun h' => h (.inl h')).le

/-- A determinant is read in any unit alike, if the product of the diagonal is multiplied by the
same number. -/
theorem sscpDet_mul {a' : Mat ℝ} {w : ℝ} (hw : 0 < w) (hdet : a'.det = w * a.det)
    (hdiagonal : product a'.diagonal = w * product a.diagonal) : a'.sscpDet = w * a.sscpDet := by
  -- all three conditions for the report of zero compare numbers that carry the same factor
  have hiff : (a'.det ≤ 0 ∨ product a'.diagonal ≤ 0 ∨
      a'.det ≤ product a'.diagonal * singularityTolerance) ↔
        (a.det ≤ 0 ∨ product a.diagonal ≤ 0 ∨
          a.det ≤ product a.diagonal * singularityTolerance) := by
    rw [hdet, hdiagonal, mul_assoc, mul_le_mul_iff_right₀ hw]
    simp only [mul_nonpos_iff, hw.not_ge, hw.le, false_and, true_and, or_false]
  rw [sscpDet, sscpDet, if_congr hiff rfl hdet, mul_ite, mul_zero]

theorem sscpDet_of_nearSingular (h : a.NearSingular) : a.sscpDet = 0 := if_pos (.inr (.inr h))

/-- The determinant of a positive semidefinite matrix that is not near singular is taken as it is.
-/
theorem sscpDet_of_not_nearSingular (hsq : a.IsSquare) (h : (a.square a.rows).PosSemidef)
    (hn : ¬ a.NearSingular) : a.sscpDet = a.det := by
  have hbound := product_diagonal_nonneg h
  have hdet : 0 < a.det :=
    (mul_nonneg hbound singularityTolerance_pos.le).trans_lt (not_le.mp hn)
  refine if_neg ?_
  rintro (h' | h' | h')
  · exact absurd hdet (not_lt.mpr h')
  · exact absurd (product_diagonal_pos hsq h hdet) (not_lt.mpr h')
  · exact hn h'

theorem sscpDet_pos_iff (hsq : a.IsSquare) (h : (a.square a.rows).PosSemidef) :
    0 < a.sscpDet ↔ ¬ a.NearSingular := by
  refine ⟨fun hpos hn => hpos.ne' (sscpDet_of_nearSingular hn), fun hn => ?_⟩
  rw [sscpDet_of_not_nearSingular hsq h hn]
  exact (mul_nonneg (product_diagonal_nonneg h) singularityTolerance_pos.le).trans_lt
    (not_le.mp hn)

/-- A determinant of order one is the entry. -/
theorem det_of_rows (hsq : a.IsSquare) (hrows : a.rows = 1) : a.det = a.get 0 0 := by
  rw [det_eq hsq, hrows, Matrix.det_fin_one]
  rfl

/-- A positive semidefinite matrix of order one is near singular only if it is zero. -/
theorem nearSingular_iff_of_rows (hsq : a.IsSquare) (h : (a.square a.rows).PosSemidef)
    (hrows : a.rows = 1) : a.NearSingular ↔ a.det = 0 := by
  have hdet : a.det = product a.diagonal := by
    rw [det_of_rows hsq hrows, product_diagonal, hrows, Fin.prod_univ_one]
    rfl
  have hnonneg := det_nonneg hsq h
  rw [NearSingular, ← hdet]
  constructor
  · intro hle
    nlinarith [singularityTolerance_lt_one]
  · intro h0
    rw [h0, zero_mul]

/-- A positive semidefinite matrix of order one is read as its entry. -/
theorem sscpDet_of_rows (hsq : a.IsSquare) (h : (a.square a.rows).PosSemidef) (hrows : a.rows = 1) :
    a.sscpDet = a.get 0 0 := by
  rw [← det_of_rows hsq hrows]
  by_cases hn : a.NearSingular
  · rw [sscpDet_of_nearSingular hn, (nearSingular_iff_of_rows hsq h hrows).mp hn]
  · exact sscpDet_of_not_nearSingular hsq h hn

end Mat

/-! ## The comparison of two models -/

namespace ErrorMatrices

/-- The matrices of a model and of a restriction of it. -/
structure Nested (m : ErrorMatrices ℝ) : Prop where
  /-- Both models have the same variables. -/
  rows_eq : m.restricted.rows = m.full.rows
  /-- The error of the full model. -/
  posSemidef_full : Matrix.PosSemidef (m.full.square m.variableCount)
  /-- What the restriction adds to it. -/
  posSemidef_sub :
    Matrix.PosSemidef (m.restricted.square m.variableCount - m.full.square m.variableCount)

namespace Nested

variable {m : ErrorMatrices ℝ} (h : m.Nested)

include h

theorem posSemidef_restricted : (m.restricted.square m.restricted.rows).PosSemidef := by
  have hsum := h.posSemidef_full.add h.posSemidef_sub
  rw [add_sub_cancel] at hsum
  rw [h.rows_eq]
  exact hsum

theorem det_restricted : m.restricted.det = (m.restricted.square m.variableCount).det := by
  rw [Mat.det_eq m.restricted_square, h.rows_eq]
  rfl

theorem det_full_nonneg : 0 ≤ m.full.det := Mat.det_nonneg m.full_square h.posSemidef_full

/-- The determinants themselves are in the right order. -/
theorem det_full_le_det_restricted : m.full.det ≤ m.restricted.det := by
  rw [h.det_restricted, Mat.det_eq m.full_square]
  have hle := det_le_det_add h.posSemidef_full h.posSemidef_sub
  rwa [add_sub_cancel] at hle

theorem fullDet_pos_iff : 0 < m.fullDet ↔ ¬ m.full.NearSingular :=
  Mat.sscpDet_pos_iff m.full_square h.posSemidef_full

theorem restrictedDet_pos_iff : 0 < m.restrictedDet ↔ ¬ m.restricted.NearSingular :=
  Mat.sscpDet_pos_iff m.restricted_square h.posSemidef_restricted

/-- A restricted matrix that is not near singular keeps the order. -/
theorem fullDet_le_restrictedDet (hn : ¬ m.restricted.NearSingular) :
    m.fullDet ≤ m.restrictedDet := by
  rw [restrictedDet,
    Mat.sscpDet_of_not_nearSingular m.restricted_square h.posSemidef_restricted hn]
  refine le_trans ?_ h.det_full_le_det_restricted
  by_cases hf : m.full.NearSingular
  · exact (Mat.sscpDet_of_nearSingular hf).trans_le h.det_full_nonneg
  · exact (Mat.sscpDet_of_not_nearSingular m.full_square h.posSemidef_full hf).le

/-- The readings are in the wrong order exactly if the restricted matrix alone is near singular. -/
theorem restrictedDet_lt_fullDet_iff :
    m.restrictedDet < m.fullDet ↔ ¬ m.full.NearSingular ∧ m.restricted.NearSingular := by
  refine ⟨fun hlt => ?_, fun ⟨hf, hr⟩ => ?_⟩
  · have hr : m.restricted.NearSingular := by
      by_contra hn
      exact absurd hlt (not_lt.mpr (h.fullDet_le_restrictedDet hn))
    exact ⟨h.fullDet_pos_iff.mp ((Mat.sscpDet_nonneg _).trans_lt hlt), hr⟩
  · rw [restrictedDet, Mat.sscpDet_of_nearSingular hr]
    exact h.fullDet_pos_iff.mpr hf

section OneVariable

variable (hone : m.variableCount = 1)

include hone

theorem fullDet_of_variableCount : m.fullDet = m.full.get 0 0 :=
  Mat.sscpDet_of_rows m.full_square h.posSemidef_full hone

theorem restrictedDet_of_variableCount : m.restrictedDet = m.restricted.get 0 0 :=
  Mat.sscpDet_of_rows m.restricted_square h.posSemidef_restricted (h.rows_eq.trans hone)

/-- With one variable the readings are always in the right order. -/
theorem fullDet_le_restrictedDet_of_variableCount : m.fullDet ≤ m.restrictedDet := by
  have hle := h.det_full_le_det_restricted
  rwa [Mat.det_of_rows m.full_square hone,
    Mat.det_of_rows m.restricted_square (h.rows_eq.trans hone),
    ← h.fullDet_of_variableCount hone, ← h.restrictedDet_of_variableCount hone] at hle

end OneVariable

/-- A regular full model is matched by its restriction only if the restriction adds nothing, or if
its determinant is read as zero. -/
theorem restrictedDet_le_fullDet_iff (hpos : 0 < m.fullDet) : m.restrictedDet ≤ m.fullDet ↔
    m.restricted.NearSingular ∨
      m.restricted.square m.variableCount - m.full.square m.variableCount = 0 := by
  have hf := h.fullDet_pos_iff.mp hpos
  have hfull := Mat.sscpDet_of_not_nearSingular m.full_square h.posSemidef_full hf
  have hdef : (m.full.square m.variableCount).PosDef :=
    h.posSemidef_full.posDef_iff_det_ne_zero.mpr fun h0 => hpos.ne' <| by
      rw [fullDet, hfull, Mat.det_eq m.full_square]
      exact h0
  by_cases hr : m.restricted.NearSingular
  · refine ⟨fun _ => .inl hr, fun _ => ?_⟩
    rw [restrictedDet, Mat.sscpDet_of_nearSingular hr]
    exact hpos.le
  · have hiff := det_add_eq_iff hdef h.posSemidef_sub
    rw [add_sub_cancel] at hiff
    have hle := h.det_full_le_det_restricted
    rw [restrictedDet, fullDet, hfull,
      Mat.sscpDet_of_not_nearSingular m.restricted_square h.posSemidef_restricted hr]
    rw [h.det_restricted, Mat.det_eq m.full_square] at hle ⊢
    rw [or_iff_right hr, ← hiff]
    exact ⟨fun h' => le_antisymm h' hle, fun h' => h'.le⟩

end Nested

end ErrorMatrices

end SplitPlot
