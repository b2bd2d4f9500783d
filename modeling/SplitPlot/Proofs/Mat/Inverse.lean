import Mathlib
import SplitPlot.Mat.Inverse
import SplitPlot.Proofs.Mat.Determinant

/-!
# The three ways to an inverse agree

A matrix is inverted in one of three ways, by its order.  In exact arithmetic each of them gives the
inverse of every regular matrix (`Mat.exists_inverse?`).

* Up to order three the cofactors are divided by the determinant.  Transposed they are the adjugate
  (`square_adjugate`), and the quotient is the inverse by definition.
* At order four the cofactors are written out, and the determinant is the sum of the products of the
  first column with its cofactors.  That is an entry of the product of the adjugate with the matrix.
* Above, the system with the unit matrix on the right is solved.  One step of the elimination takes
  multiples of the first equation from the others, which a solution of the first equation and of the
  remaining system undoes (`exists_solve?`).  The rows that the pivot exchanges are exchanged on
  both sides.  A regular matrix never leaves a pivot of zero.
-/

namespace SplitPlot

namespace Mat

open Finset

/-! ## Cofactors -/

theorem minor_rows {a : Mat ℝ} {n : ℕ} (hrows : a.rows = n + 1) (i j : ℕ) :
    (a.minor i j).rows = n := by
  rw [minor, rows_ofFn, hrows, Nat.add_sub_cancel]

theorem minor_cols {a : Mat ℝ} {n : ℕ} (hcols : a.cols = n + 1) (i j : ℕ) :
    (a.minor i j).cols = n := by
  rw [minor, cols_ofFn, hcols, Nat.add_sub_cancel]

/-- The transposed cofactors are the adjugate. -/
theorem square_adjugate {a : Mat ℝ} {n : ℕ} (hrows : a.rows = n) (hcols : a.cols = n) :
    a.adjugate.square n = (a.square n).adjugate := by
  cases n with
  | zero => exact Subsingleton.elim _ _
  | succ n =>
    ext i j
    have hi : (i : ℕ) < a.rows := i.isLt.trans_eq hrows.symm
    have hj : (j : ℕ) < a.rows := j.isLt.trans_eq hrows.symm
    rw [square_apply, adjugate, get_ofFn _ hi hj, hrows, Nat.add_sub_cancel,
      expand_eq (minor_rows hrows _ _) (minor_cols hcols _ _), square_minor hrows hcols,
      Matrix.adjugate_fin_succ_eq_det_submatrix, alternating_eq, add_comm]

theorem inv_apply {n : ℕ} (M : Matrix (Fin n) (Fin n) ℝ) (i j : Fin n) :
    M⁻¹ i j = M.adjugate i j / M.det := by
  rw [Matrix.inv_def, Matrix.smul_apply, Ring.inverse_eq_inv', smul_eq_mul, inv_mul_eq_div]

/-- Divided by the determinant, the cofactors are the inverse. -/
theorem exists_divideCofactors? {a : Mat ℝ} {n : ℕ} (hrows : a.rows = n) (hcols : a.cols = n)
    (hdet : (a.square n).det ≠ 0) : ∃ b, a.divideCofactors? = some b ∧ b.rows = n ∧ b.cols = n ∧
      b.square n = (a.square n)⁻¹ := by
  have hvalue : expand a.rows a = (a.square n).det := by rw [hrows, expand_eq hrows hcols]
  refine ⟨ofFn a.rows a.rows fun i j => a.adjugate.get i j / (a.square n).det, ?_, hrows, hrows, ?_⟩
  · rw [divideCofactors?, hvalue, if_neg (mt (isZero_iff _).mp hdet)]
  · ext i j
    have hi : (i : ℕ) < a.rows := i.isLt.trans_eq hrows.symm
    have hj : (j : ℕ) < a.rows := j.isLt.trans_eq hrows.symm
    rw [inv_apply, ← square_adjugate hrows hcols, square_apply, get_ofFn _ hi hj, square_apply]

/-! ## Cofactors of order four -/

theorem sarrus_eq (a : Mat ℝ) : a.sarrus = (a.square 3).det := by
  rw [Matrix.det_fin_three]
  simp only [sarrus, square_apply, Fin.val_zero, Fin.val_one, Fin.val_two]
  ring

theorem square_adjugateFour {a : Mat ℝ} (hrows : a.rows = 4) (hcols : a.cols = 4) :
    a.adjugateFour.square 4 = (a.square 4).adjugate := by
  ext i j
  rw [square_apply, adjugateFour, get_ofFn _ i.isLt j.isLt, sarrus_eq, square_minor hrows hcols,
    Matrix.adjugate_fin_succ_eq_det_submatrix, alternating_eq, add_comm]

/-- The expansion along the first column is the determinant. -/
theorem expandColumn_eq {a : Mat ℝ} (hrows : a.rows = 4) (hcols : a.cols = 4) :
    total ((List.range 4).map fun i => a.get i 0 * a.adjugateFour.get 0 i) = (a.square 4).det := by
  have h : ((a.square 4).adjugate * a.square 4) 0 0 = (a.square 4).det := by
    rw [Matrix.adjugate_mul, Matrix.smul_apply, Matrix.one_apply_eq, smul_eq_mul, mul_one]
  rw [← h, total_eq_sum, sum_map_range, sum_range, Matrix.mul_apply,
    ← square_adjugateFour hrows hcols]
  refine sum_congr rfl fun i _ => ?_
  rw [square_apply, square_apply, Fin.val_zero, mul_comm]

theorem exists_scaleCofactors? {a : Mat ℝ} (hrows : a.rows = 4) (hcols : a.cols = 4)
    (hdet : (a.square 4).det ≠ 0) : ∃ b, a.scaleCofactors? = some b ∧ b.rows = 4 ∧ b.cols = 4 ∧
      b.square 4 = (a.square 4)⁻¹ := by
  refine ⟨ofFn 4 4 fun i j => a.adjugateFour.get i j * (1 / (a.square 4).det), ?_, rfl, rfl, ?_⟩
  · rw [scaleCofactors?, expandColumn_eq hrows hcols, if_neg (mt (isZero_iff _).mp hdet)]
  · ext i j
    rw [inv_apply, ← square_adjugateFour hrows hcols, square_apply, get_ofFn _ i.isLt j.isLt,
      mul_one_div, square_apply]

/-! ## Elimination -/

/-- To take terms away one at a time is to take their sum away. -/
theorem foldr_sub (c : ℕ → ℝ) (b : ℝ) (l : List ℕ) :
    l.foldr (fun k rest => rest - c k) b = b - (l.map c).sum := by
  induction l with
  | nil => simp
  | cons k l ih => rw [List.foldr_cons, ih, List.map_cons, List.sum_cons, sub_sub, add_comm]

/-- The entries that are left when the first column has been cleared. -/
theorem get_clear {a b : Mat ℝ} (hpivot : a.get 0 0 ≠ 0) (c : ℕ) {i j : ℕ} (hi : i + 1 < b.rows)
    (hj : j + c < b.cols) : (a.clear b c).get i j =
      b.get (i + 1) (j + c) - a.get (i + 1) 0 * (1 / a.get 0 0) * b.get 0 (j + c) := by
  have hi' : i < b.rows - 1 := Nat.lt_sub_of_add_lt hi
  have hj' : j < b.cols - c := Nat.lt_sub_of_add_lt hj
  rw [clear, if_neg (mt (isZero_iff _).mp hpivot), get_ofFn _ hi' hj']

/-- A solution of the first equation and of the system that is left when the first unknown has been
eliminated from the others solves them all. -/
theorem sum_eq_of_cleared {a b x : Mat ℝ} {n j : ℕ} (hrows : a.rows = n + 1)
    (hcols : a.cols = n + 1) (hb : b.rows = n + 1) (hj : j < b.cols) (hpivot : a.get 0 0 ≠ 0)
    (hfirst : x.get 0 j =
      (b.get 0 j - ∑ k ∈ range n, a.get 0 (k + 1) * x.get (k + 1) j) / a.get 0 0)
    (hrest : ∀ i < n, ∑ k ∈ range n, (a.clear a 1).get i k * x.get (k + 1) j =
      (a.clear b 0).get i j) {i : ℕ} (hi : i < n + 1) :
    ∑ k ∈ range (n + 1), a.get i k * x.get k j = b.get i j := by
  rw [sum_range_succ']
  cases i with
  | zero =>
    rw [hfirst, mul_div_cancel₀ _ hpivot, add_sub_cancel]
  | succ i =>
    have hi' : i + 1 < n + 1 := hi
    have hcleared := hrest i (Nat.lt_of_succ_lt_succ hi)
    rw [get_clear hpivot 0 (hb ▸ hi') hj, Nat.add_zero] at hcleared
    have hterm : ∀ k ∈ range n, (a.clear a 1).get i k * x.get (k + 1) j =
        a.get (i + 1) (k + 1) * x.get (k + 1) j -
          a.get (i + 1) 0 * (1 / a.get 0 0) * (a.get 0 (k + 1) * x.get (k + 1) j) := fun k hk => by
      rw [get_clear hpivot 1 (hrows ▸ hi') (hcols ▸ Nat.succ_lt_succ (mem_range.mp hk))]
      ring
    rw [sum_congr rfl hterm, sum_sub_distrib, ← mul_sum] at hcleared
    rw [hfirst]
    linear_combination hcleared

/-- Exchanging two equations does not change the solutions. -/
theorem sum_eq_of_raised {a b x : Mat ℝ} {n p j : ℕ} (hrows : a.rows = n + 1)
    (hcols : a.cols = n + 1) (hb : b.rows = n + 1) (hp : p < n + 1) (hj : j < b.cols)
    (h : ∀ i < n + 1, ∑ k ∈ range (n + 1), (a.raise p).get i k * x.get k j = (b.raise p).get i j)
    {i : ℕ} (hi : i < n + 1) : ∑ k ∈ range (n + 1), a.get i k * x.get k j = b.get i j := by
  have hswap : Equiv.swap 0 p i < n + 1 := by
    rw [Equiv.swap_apply_def]
    split_ifs <;> omega
  have hrow := h _ hswap
  rw [get_raise p (hb.symm ▸ hswap) hj, Equiv.swap_apply_self] at hrow
  rw [← hrow]
  refine sum_congr rfl fun k hk => ?_
  rw [get_raise p (hrows.symm ▸ hswap) (hcols.symm ▸ mem_range.mp hk), Equiv.swap_apply_self]

/-- What is left of a regular matrix after one step is regular. -/
theorem det_cleared_ne_zero {a : Mat ℝ} {n : ℕ} (hrows : a.rows = n + 1) (hcols : a.cols = n + 1)
    (hdet : (a.square (n + 1)).det ≠ 0) :
    (((a.raise a.pivotRow).clear (a.raise a.pivotRow) 1).square n).det ≠ 0 := fun h0 => by
  have hsign := det_square_raise hrows hcols (p := a.pivotRow) (hrows ▸ pivotRow_lt (by omega))
  rw [det_square_clear (by rw [rows_raise, hrows]) (by rw [cols_raise, hcols])
    (mt (det_eq_zero_of_pivot hrows hcols) hdet), h0, mul_zero, eq_comm, mul_eq_zero] at hsign
  refine hsign.elim (fun h => ?_) hdet
  split_ifs at h <;> norm_num at h

/-- A system with a regular matrix is solved. -/
theorem exists_solve? {n : ℕ} {a b : Mat ℝ} (hrows : a.rows = n) (hcols : a.cols = n)
    (hb : b.rows = n) (hdet : (a.square n).det ≠ 0) :
    ∃ x, solve? n a b = some x ∧ x.rows = n ∧ x.cols = b.cols ∧
      ∀ i < n, ∀ j < b.cols, ∑ k ∈ range n, a.get i k * x.get k j = b.get i j := by
  induction n generalizing a b with
  | zero => exact ⟨_, rfl, rfl, rfl, fun i hi => absurd hi (Nat.not_lt_zero i)⟩
  | succ n ih =>
    set p := a.pivotRow with hp
    have hpivot : (a.raise p).get 0 0 ≠ 0 := mt (det_eq_zero_of_pivot hrows hcols) hdet
    have hrows' : (a.raise p).rows = n + 1 := by rw [rows_raise, hrows]
    have hcols' : (a.raise p).cols = n + 1 := by rw [cols_raise, hcols]
    have hb' : (b.raise p).rows = n + 1 := by rw [rows_raise, hb]
    obtain ⟨below, hbelow, -, -, hsolves⟩ := ih (a := (a.raise p).clear (a.raise p) 1)
      (b := (a.raise p).clear (b.raise p) 0) (by rw [rows_clear, hrows', Nat.add_sub_cancel])
      (by rw [cols_clear, hcols', Nat.add_sub_cancel])
      (by rw [rows_clear, hb', Nat.add_sub_cancel]) (det_cleared_ne_zero hrows hcols hdet)
    rw [cols_clear, Nat.sub_zero, cols_raise] at hsolves
    let x : Mat ℝ := ofFn (n + 1) (b.raise p).cols fun i j =>
      if i = 0 then (List.range n).foldr (fun k rest => rest - (a.raise p).get 0 (k + 1) *
        below.get k j) ((b.raise p).get 0 j) / (a.raise p).get 0 0
      else below.get (i - 1) j
    have hx : solve? (n + 1) a b = some x := by
      rw [solve?, ← hp, if_neg (mt (isZero_iff _).mp hpivot), hbelow]
      rfl
    refine ⟨x, hx, rfl, cols_raise b p, fun i hi j hj => ?_⟩
    have hj' : j < (b.raise p).cols := (cols_raise b p).symm ▸ hj
    have hbelowx : ∀ k < n, x.get (k + 1) j = below.get k j := fun k hk => by
      rw [get_ofFn _ (Nat.succ_lt_succ hk) hj', if_neg k.succ_ne_zero, Nat.succ_sub_one]
    have hfirst : x.get 0 j = ((b.raise p).get 0 j -
        ∑ k ∈ range n, (a.raise p).get 0 (k + 1) * x.get (k + 1) j) / (a.raise p).get 0 0 := by
      rw [get_ofFn _ n.succ_pos hj', if_pos rfl, foldr_sub, sum_map_range]
      refine congrArg (fun s => (_ - s) / _) (sum_congr rfl fun k hk => ?_)
      rw [hbelowx k (mem_range.mp hk)]
    have hrest : ∀ i < n,
        ∑ k ∈ range n, ((a.raise p).clear (a.raise p) 1).get i k * x.get (k + 1) j =
          ((a.raise p).clear (b.raise p) 0).get i j := fun i hi => by
      rw [← hsolves i hi j hj]
      exact sum_congr rfl fun k hk => by rw [hbelowx k (mem_range.mp hk)]
    exact sum_eq_of_raised hrows hcols hb (hrows ▸ pivotRow_lt (by omega)) hj
      (fun i hi => sum_eq_of_cleared hrows' hcols' hb' hj' hpivot hfirst hrest hi) hi

/-- Solved for the unit matrix, a system gives the inverse. -/
theorem exists_solve?_identity {a : Mat ℝ} {n : ℕ} (hrows : a.rows = n) (hcols : a.cols = n)
    (hdet : (a.square n).det ≠ 0) : ∃ b, solve? n a (identity n) = some b ∧ b.rows = n ∧
      b.cols = n ∧ b.square n = (a.square n)⁻¹ := by
  obtain ⟨x, hx, hxrows, hxcols, hsolves⟩ := exists_solve? hrows hcols (b := identity n) rfl hdet
  refine ⟨x, hx, hxrows, hxcols, (Matrix.inv_eq_right_inv ?_).symm⟩
  ext i j
  have hij := hsolves i i.isLt j j.isLt
  rw [get_identity i.isLt j.isLt, sum_range] at hij
  rw [Matrix.mul_apply, Matrix.one_apply]
  exact hij.trans (if_congr Fin.ext_iff.symm rfl rfl)

/-! ## The inverse -/

/-- The inverse of a regular matrix is found. -/
theorem exists_inverse? {a : Mat ℝ} {n : ℕ} (hrows : a.rows = n) (hcols : a.cols = n)
    (hdet : (a.square n).det ≠ 0) : ∃ b, a.inverse? = some b ∧ b.rows = n ∧ b.cols = n ∧
      b.square n = (a.square n)⁻¹ := by
  have hsquare : a.IsSquare := hrows.trans hcols.symm
  rw [inverse?, if_neg (not_not.mpr hsquare), hrows]
  split
  · exact exists_divideCofactors? hrows hcols hdet
  · split
    · next h4 =>
      subst h4
      exact exists_scaleCofactors? hrows hcols hdet
    · exact exists_solve?_identity hrows hcols hdet

end Mat

end SplitPlot
