import Mathlib
import SplitPlot.Proofs.Mat.Determinant

/-!
# Cross products of residuals

The matrix of sums of squares and cross products adds up the products of each row
(`Mat.square_crossProduct`), so it is positive semidefinite.  Where every column of the residuals
sums to zero, adding one row to all of them adds to the cross products nothing but that row's own
products, once for each row (`Mat.square_crossProduct_addRow`).
-/

namespace SplitPlot

namespace Mat

open Finset Matrix

/-! ## Products -/

/-- The products of the values of a function, two at a time. -/
noncomputable def products (n : ℕ) (v : ℕ → ℝ) : Matrix (Fin n) (Fin n) ℝ :=
  vecMulVec (fun i => v i) fun j => v j

theorem products_apply {n : ℕ} (v : ℕ → ℝ) (i j : Fin n) : products n v i j = v i * v j := rfl

theorem posSemidef_products (n : ℕ) (v : ℕ → ℝ) : (products n v).PosSemidef :=
  posSemidef_vecMulVec_self_star fun i : Fin n => v i

theorem products_eq_zero_iff {n : ℕ} {v : ℕ → ℝ} : products n v = 0 ↔ ∀ i < n, v i = 0 := by
  rw [products, vecMulVec_eq_zero, or_self]
  constructor
  · intro h i hi
    exact congrFun h ⟨i, hi⟩
  · intro h
    ext i
    exact h i i.isLt

theorem trace_products (n : ℕ) (v : ℕ → ℝ) : (products n v).trace = ∑ i ∈ range n, v i ^ 2 := by
  rw [sum_range]
  exact sum_congr rfl fun i _ => (pow_two _).symm

/-! ## Sums -/

@[simp] theorem rows_add (a b : Mat ℝ) : (a + b).rows = a.rows := rfl

theorem square_add {a : Mat ℝ} (h : a.IsSquare) (b : Mat ℝ) :
    (a + b).square a.rows = a.square a.rows + b.square a.rows := by
  ext i j
  exact get_add i.isLt (j.isLt.trans_eq h)

theorem trace_eq (a : Mat ℝ) : a.trace = (a.square a.rows).trace := by
  rw [Mat.trace, diagonal, total_eq_sum, sum_map_range, sum_range]
  rfl

/-- A matrix is recovered from a sum with it, as far as the trace goes. -/
theorem trace_add_sub {a b : Mat ℝ} (h : a.IsSquare) :
    (a + b - a).trace = ∑ j ∈ range a.rows, b.get j j := by
  rw [Mat.trace, diagonal, total_eq_sum, sum_map_range, rows_sub (a := a + b) (b := a) rfl]
  refine sum_congr rfl fun j hj => ?_
  have hj : j < a.rows := mem_range.mp hj
  have hj' : j < a.cols := h ▸ hj
  rw [get_sub (a := a + b) (b := a) rfl rfl hj hj', get_add hj hj']
  exact add_sub_cancel_left _ _

/-! ## The products of each row -/

variable (a : Mat ℝ)

@[simp] theorem rows_crossProduct : a.crossProduct.rows = a.cols := rfl

@[simp] theorem cols_addRow (r : List ℝ) : (a.addRow r).cols = a.cols := rfl

variable {a} in
theorem get_crossProduct_eq_sum {i j : ℕ} (hi : i < a.cols) (hj : j < a.cols) :
    a.crossProduct.get i j = ∑ k ∈ range a.rows, a.get k i * a.get k j := by
  rw [get_crossProduct hi hj, total_eq_sum, sum_map_range]

theorem square_crossProduct :
    a.crossProduct.square a.cols = ∑ k ∈ range a.rows, products a.cols (a.get k) := by
  ext i j
  rw [square_apply, get_crossProduct_eq_sum i.isLt j.isLt, Matrix.sum_apply]
  rfl

theorem posSemidef_crossProduct : (a.crossProduct.square a.cols).PosSemidef := by
  rw [square_crossProduct]
  exact posSemidef_sum _ fun k _ => posSemidef_products _ _

/-- The trace of the cross products is the sum of the squares of all entries. -/
theorem trace_crossProduct :
    a.crossProduct.trace = ∑ j ∈ range a.cols, ∑ i ∈ range a.rows, a.get i j ^ 2 := by
  rw [trace_eq]
  show (a.crossProduct.square a.cols).trace = _
  rw [square_crossProduct, Matrix.trace_sum, sum_comm]
  exact sum_congr rfl fun k _ => trace_products _ _

/-! ## Two columns -/

/-- The determinant of the cross products of two columns and the product of their diagonal, for
columns that are given up to the square root of a number. -/
theorem det_crossProduct_two {a : Mat ℝ} (hcols : a.cols = 2) {x y : ℕ → ℝ} {p q : ℝ} (hp : 0 ≤ p)
    (hq : 0 ≤ q) (hx : ∀ k < a.rows, a.get k 0 = x k / √p)
    (hy : ∀ k < a.rows, a.get k 1 = y k / √q) :
    a.crossProduct.det = ((∑ k ∈ range a.rows, x k ^ 2) * ∑ k ∈ range a.rows, y k ^ 2) / (p * q) -
        (∑ k ∈ range a.rows, x k * y k) ^ 2 / (p * q) ∧
      product a.crossProduct.diagonal =
        ((∑ k ∈ range a.rows, x k ^ 2) * ∑ k ∈ range a.rows, y k ^ 2) / (p * q) := by
  have h0 : 0 < a.cols := by omega
  have h1 : 1 < a.cols := by omega
  have hroots : √p * √q * (√p * √q) = p * q := by
    rw [mul_mul_mul_comm, Real.mul_self_sqrt hp, Real.mul_self_sqrt hq]
  have h00 : a.crossProduct.get 0 0 = (∑ k ∈ range a.rows, x k ^ 2) / p := by
    rw [get_crossProduct_eq_sum h0 h0, sum_div]
    refine sum_congr rfl fun k hk => ?_
    rw [hx k (mem_range.mp hk), div_mul_div_comm, Real.mul_self_sqrt hp, pow_two]
  have h11 : a.crossProduct.get 1 1 = (∑ k ∈ range a.rows, y k ^ 2) / q := by
    rw [get_crossProduct_eq_sum h1 h1, sum_div]
    refine sum_congr rfl fun k hk => ?_
    rw [hy k (mem_range.mp hk), div_mul_div_comm, Real.mul_self_sqrt hq, pow_two]
  have h01 : a.crossProduct.get 0 1 = (∑ k ∈ range a.rows, x k * y k) / (√p * √q) := by
    rw [get_crossProduct_eq_sum h0 h1, sum_div]
    refine sum_congr rfl fun k hk => ?_
    rw [hx k (mem_range.mp hk), hy k (mem_range.mp hk), div_mul_div_comm]
  have h10 : a.crossProduct.get 1 0 = (∑ k ∈ range a.rows, x k * y k) / (√p * √q) := by
    rw [get_crossProduct h1 h0, ← h01, get_crossProduct h0 h1]
    exact congrArg total (List.map_congr_left fun k _ => mul_comm _ _)
  constructor
  · have hdet : a.crossProduct.det = a.crossProduct.get 0 0 * a.crossProduct.get 1 1 -
        a.crossProduct.get 0 1 * a.crossProduct.get 1 0 := by
      rw [det_eq (isSquare_crossProduct a), rows_crossProduct, hcols, Matrix.det_fin_two]
      rfl
    rw [hdet, h00, h11, h01, h10, div_mul_div_comm, div_mul_div_comm, hroots, pow_two]
  · have hrange : List.range a.crossProduct.rows = [0, 1] := by
      rw [rows_crossProduct, hcols]
      rfl
    rw [product_eq_prod, diagonal, hrange, List.map_cons, List.map_cons, List.map_nil,
      List.prod_cons, List.prod_cons, List.prod_nil, mul_one, h00, h11, div_mul_div_comm]

/-! ## Adding a row -/

variable {a} (hzero : ∀ j < a.cols, ∑ k ∈ range a.rows, a.get k j = 0) (r : List ℝ)

include hzero

/-- What is added to the cross products of columns that sum to zero. -/
theorem square_crossProduct_addRow : (a.addRow r).crossProduct.square a.cols =
    a.crossProduct.square a.cols + (a.rows : ℝ) • products a.cols (r.getD · 0) := by
  ext i j
  have hentry : ∀ k ∈ range a.rows, (a.addRow r).get k i * (a.addRow r).get k j =
      a.get k i * a.get k j + (r.getD j 0 * a.get k i + r.getD i 0 * a.get k j) +
        r.getD i 0 * r.getD j 0 := fun k hk => by
    rw [get_addRow r (mem_range.mp hk) i.isLt, get_addRow r (mem_range.mp hk) j.isLt]
    ring
  have hi : (i : ℕ) < (a.addRow r).cols := i.isLt
  have hj : (j : ℕ) < (a.addRow r).cols := j.isLt
  rw [Matrix.add_apply, Matrix.smul_apply, products_apply, square_apply, square_apply,
    get_crossProduct_eq_sum hi hj, get_crossProduct_eq_sum i.isLt j.isLt]
  show ∑ k ∈ range a.rows, _ = _
  rw [sum_congr rfl hentry, sum_add_distrib, sum_add_distrib, sum_add_distrib, ← mul_sum, ← mul_sum,
    hzero i i.isLt, hzero j j.isLt, mul_zero, mul_zero, add_zero, add_zero, sum_const, card_range,
    nsmul_eq_mul, smul_eq_mul]

theorem trace_crossProduct_addRow : (a.addRow r).crossProduct.trace =
    a.crossProduct.trace + a.rows * ∑ j ∈ range a.cols, r.getD j 0 ^ 2 := by
  rw [trace_eq, trace_eq]
  show ((a.addRow r).crossProduct.square a.cols).trace =
    (a.crossProduct.square a.cols).trace + _
  rw [square_crossProduct_addRow hzero, Matrix.trace_add, Matrix.trace_smul, smul_eq_mul,
    trace_products]

end Mat

end SplitPlot
