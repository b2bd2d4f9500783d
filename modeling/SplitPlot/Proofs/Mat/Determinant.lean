import Mathlib
import SplitPlot.Mat.Determinant
import SplitPlot.Mat.Lemmas
import SplitPlot.Proofs.Decomposition.Positions
import SplitPlot.Proofs.Exact

/-!
# The two ways to a determinant agree

In exact arithmetic both the expansion of a small matrix and the elimination of a large one give its
determinant (`Mat.det_eq`).  The determinant is that of the function which the matrix shows
(`Mat.square`), so everything known of determinants applies to it.

## Elimination

One step of the elimination has three parts.  Raising the pivot exchanges two rows and changes the
sign (`det_square_raise`); clearing the first column leaves the determinant as it is, and what it
leaves is the pivot times the determinant of the remaining matrix (`det_square_clear`).  A pivot of
zero is the largest entry of its column, so the column vanishes and the determinant with it; the
step then goes on with a factor of zero.
-/

namespace SplitPlot

namespace Mat

open Finset

/-- A matrix as a function on the rows and columns below `n`. -/
noncomputable def square (a : Mat ℝ) (n : ℕ) : Matrix (Fin n) (Fin n) ℝ :=
  Matrix.of fun i j => a.get i j

theorem square_apply (a : Mat ℝ) {n : ℕ} (i j : Fin n) : a.square n i j = a.get i j := rfl

/-- The product of two square matrices of one order. -/
theorem square_mul {a b : Mat ℝ} {n : ℕ} (hrows : a.rows = n) (hcols : a.cols = n)
    (hb : b.cols = n) : (a * b).square n = a.square n * b.square n := by
  ext i j
  rw [square_apply, get_mul (hrows.symm ▸ i.isLt) (hb.symm ▸ j.isLt), hcols, total_eq_sum,
    sum_map_range, sum_range]
  rfl

/-! ## Expansion -/

theorem alternating_eq (i : ℕ) : (alternating i : ℝ) = (-1) ^ i := by
  rw [alternating]
  split
  · next h => exact (Even.neg_one_pow (Nat.even_iff.mpr h)).symm
  · next h => exact (Odd.neg_one_pow (Nat.odd_iff.mpr (Nat.mod_two_ne_zero.mp h))).symm

theorem square_minor {a : Mat ℝ} {n : ℕ} (hrows : a.rows = n + 1) (hcols : a.cols = n + 1)
    (i j : Fin (n + 1)) :
    (a.minor i j).square n = (a.square (n + 1)).submatrix i.succAbove j.succAbove := by
  -- leaving out a row or a column is counting past it
  have hskip : ∀ (i : Fin (n + 1)) (r : Fin n),
      (if (r : ℕ) < i then (r : ℕ) else r + 1) = i.succAbove r := by
    intro i r
    split
    · next h => rw [Fin.succAbove_of_castSucc_lt _ _ h, Fin.val_castSucc]
    · next h => rw [Fin.succAbove_of_le_castSucc _ _ (not_lt.mp h), Fin.val_succ]
  ext r c
  have hr : (r : ℕ) < a.rows - 1 := by omega
  have hc : (c : ℕ) < a.cols - 1 := by omega
  rw [square_apply, minor, get_ofFn _ hr hc, hskip, hskip, Matrix.submatrix_apply, square_apply]

theorem expand_eq {n : ℕ} {a : Mat ℝ} (hrows : a.rows = n) (hcols : a.cols = n) :
    expand n a = (a.square n).det := by
  induction n generalizing a with
  | zero => rw [expand, Matrix.det_fin_zero]
  | succ n ih =>
    rw [expand, total_eq_sum, sum_map_range, sum_range, Matrix.det_succ_row_zero]
    refine sum_congr rfl fun j _ => ?_
    have hr : (a.minor 0 j).rows = n := by rw [minor, rows_ofFn, hrows, Nat.add_sub_cancel]
    have hc : (a.minor 0 j).cols = n := by rw [minor, cols_ofFn, hcols, Nat.add_sub_cancel]
    have hminor := square_minor hrows hcols 0 j
    rw [Fin.val_zero, Fin.succAbove_zero] at hminor
    rw [ih hr hc, hminor, alternating_eq]
    rfl

/-! ## The pivot -/

/-- Going through a list keeps a place whose value is largest so far. -/
theorem foldl_largest (f : ℕ → ℝ) (l : List ℕ) (b : ℕ) :
    ∃ r, l.foldl (fun best i => if Scalar.abs (f best) < Scalar.abs (f i) then i else best) b = r ∧
      (r = b ∨ r ∈ l) ∧ |f b| ≤ |f r| ∧ ∀ i ∈ l, |f i| ≤ |f r| := by
  induction l generalizing b with
  | nil => exact ⟨b, rfl, .inl rfl, le_rfl, fun _ h => absurd h List.not_mem_nil⟩
  | cons i l ih =>
    obtain ⟨r, hr, hmem, hb, hl⟩ := ih (if Scalar.abs (f b) < Scalar.abs (f i) then i else b)
    refine ⟨r, hr, ?_⟩
    simp only [abs_eq] at hmem hb
    split_ifs at hmem hb with h
    · refine ⟨.inr (hmem.elim (fun e => e ▸ List.mem_cons_self) (List.mem_cons_of_mem i)),
        h.le.trans hb, fun k hk => ?_⟩
      rcases List.mem_cons.mp hk with rfl | hk
      · exact hb
      · exact hl k hk
    · refine ⟨hmem.imp_right (List.mem_cons_of_mem i), hb, fun k hk => ?_⟩
      rcases List.mem_cons.mp hk with rfl | hk
      · exact (not_lt.mp h).trans hb
      · exact hl k hk

theorem pivotRow_lt {a : Mat ℝ} (h : 0 < a.rows) : a.pivotRow < a.rows := by
  obtain ⟨r, hr, hmem, -, -⟩ := foldl_largest (fun i => a.get i 0) (List.range a.rows) 0
  rw [pivotRow, hr]
  rcases hmem with rfl | hmem
  · exact h
  · exact List.mem_range.mp hmem

/-- No entry of the first column is larger than the pivot. -/
theorem abs_get_le_pivot {a : Mat ℝ} {i : ℕ} (hi : i < a.rows) :
    |a.get i 0| ≤ |a.get a.pivotRow 0| := by
  obtain ⟨r, hr, -, -, hl⟩ := foldl_largest (fun i => a.get i 0) (List.range a.rows) 0
  rw [pivotRow, hr]
  exact hl i (List.mem_range.mpr hi)

@[simp] theorem rows_raise (a : Mat ℝ) (p : ℕ) : (a.raise p).rows = a.rows := by
  rw [raise]
  split <;> rfl

@[simp] theorem cols_raise (a : Mat ℝ) (p : ℕ) : (a.raise p).cols = a.cols := by
  rw [raise]
  split <;> rfl

/-- The entries of the raised matrix are those of the rows exchanged with them. -/
theorem get_raise {a : Mat ℝ} (p : ℕ) {i j : ℕ} (hi : i < a.rows) (hj : j < a.cols) :
    (a.raise p).get i j = a.get (Equiv.swap 0 p i) j := by
  rw [raise]
  split
  · next h => rw [h, Equiv.swap_self, Equiv.refl_apply]
  · rw [get_ofFn _ hi hj, Equiv.swap_apply_def]

theorem get_raise_zero {a : Mat ℝ} (p : ℕ) {j : ℕ} (hrows : 0 < a.rows) (hj : j < a.cols) :
    (a.raise p).get 0 j = a.get p j := by
  rw [get_raise p hrows hj, Equiv.swap_apply_left]

/-- Exchanging two different rows changes the sign. -/
theorem det_square_raise {a : Mat ℝ} {n : ℕ} (hrows : a.rows = n + 1) (hcols : a.cols = n + 1)
    {p : ℕ} (hp : p < n + 1) : ((a.raise p).square (n + 1)).det =
      (if p = 0 then 1 else -1) * (a.square (n + 1)).det := by
  by_cases h : p = 0
  · rw [if_pos h, one_mul, raise, if_pos h]
  · have hne : (0 : Fin (n + 1)) ≠ ⟨p, hp⟩ := fun e => h (congrArg Fin.val e).symm
    have hswap : (a.raise p).square (n + 1) =
        (a.square (n + 1)).submatrix (Equiv.swap 0 ⟨p, hp⟩) id := by
      ext i j
      have hi : (i : ℕ) < a.rows := i.isLt.trans_eq hrows.symm
      have hj : (j : ℕ) < a.cols := j.isLt.trans_eq hcols.symm
      rw [square_apply, get_raise p hi hj, Matrix.submatrix_apply, square_apply]
      refine congrArg (a.get · j) ?_
      rw [Equiv.swap_apply_def, Equiv.swap_apply_def]
      simp only [Fin.ext_iff, Fin.val_zero]
      split_ifs <;> rfl
    rw [if_neg h, hswap, Matrix.det_permute, Equiv.Perm.sign_swap hne]
    norm_num

/-! ## Clearing a column -/

@[simp] theorem rows_clear (a b : Mat ℝ) (c : ℕ) : (a.clear b c).rows = b.rows - 1 := by
  rw [clear]
  split <;> rfl

@[simp] theorem cols_clear (a b : Mat ℝ) (c : ℕ) : (a.clear b c).cols = b.cols - c := by
  rw [clear]
  split <;> rfl

/-- With a pivot, the determinant is the pivot times that of the cleared rest. -/
theorem det_square_clear {b : Mat ℝ} {n : ℕ} (hrows : b.rows = n + 1) (hcols : b.cols = n + 1)
    (hpivot : b.get 0 0 ≠ 0) :
    (b.square (n + 1)).det = b.get 0 0 * ((b.clear b 1).square n).det := by
  -- the factor with which the first row is taken away from each of the others
  let c : Fin (n + 1) → ℝ := fun i => if i = 0 then 0 else b.get i 0 * (1 / b.get 0 0)
  let cleared : Matrix (Fin (n + 1)) (Fin (n + 1)) ℝ :=
    Matrix.of fun i j => b.get i j - c i * b.get 0 j
  have hsame : (b.square (n + 1)).det = cleared.det :=
    Matrix.det_eq_of_forall_row_eq_smul_add_const c 0 rfl fun i j => by
      simp [square_apply, cleared, c]
  have hcolumn : ∀ i : Fin n, cleared i.succ 0 = 0 := fun i => by
    simp [cleared, c, hpivot]
  have hrest : cleared.submatrix (Fin.succAbove 0) Fin.succ = (b.clear b 1).square n := by
    ext i j
    have hi : (i : ℕ) < b.rows - 1 := by omega
    have hj : (j : ℕ) < b.cols - 1 := by omega
    rw [square_apply, clear, if_neg (mt (isZero_iff _).mp hpivot), get_ofFn _ hi hj]
    simp [cleared, c]
  have hfirst : cleared 0 0 = b.get 0 0 := by simp [cleared, c]
  rw [hsame, Matrix.det_succ_column_zero, Fin.sum_univ_succ,
    sum_eq_zero fun i _ => by rw [hcolumn, mul_zero, zero_mul], add_zero, hrest, hfirst,
    Fin.val_zero, pow_zero, one_mul]

/-! ## Elimination -/

/-- A pivot of zero is the largest entry of a column of zeros. -/
theorem det_eq_zero_of_pivot {a : Mat ℝ} {n : ℕ} (hrows : a.rows = n + 1) (hcols : a.cols = n + 1)
    (hpivot : (a.raise a.pivotRow).get 0 0 = 0) : (a.square (n + 1)).det = 0 := by
  rw [get_raise_zero _ (by omega) (by omega)] at hpivot
  refine Matrix.det_eq_zero_of_column_eq_zero 0 fun i => ?_
  have hle := abs_get_le_pivot (a := a) (i := i) (i.isLt.trans_eq hrows.symm)
  rwa [hpivot, abs_zero, abs_nonpos_iff] at hle

/-- Elimination multiplies by the determinant. -/
theorem eliminate_eq {n : ℕ} {a : Mat ℝ} (hrows : a.rows = n) (hcols : a.cols = n) (acc : ℝ) :
    eliminate n acc a = acc * (a.square n).det := by
  induction n generalizing a acc with
  | zero => rw [eliminate, Matrix.det_fin_zero, mul_one]
  | succ n ih =>
    set b := a.raise a.pivotRow with hb
    have hp : a.pivotRow < n + 1 := hrows ▸ pivotRow_lt (by omega)
    have hbrows : b.rows = n + 1 := by rw [hb, rows_raise, hrows]
    have hbcols : b.cols = n + 1 := by rw [hb, cols_raise, hcols]
    have hrest := fun acc => ih (a := b.clear b 1) (by rw [rows_clear, hbrows, Nat.add_sub_cancel])
      (by rw [cols_clear, hbcols, Nat.add_sub_cancel]) acc
    have hsign := det_square_raise hrows hcols hp
    rw [eliminate, ← hb, hrest]
    by_cases h0 : b.get 0 0 = 0
    · rw [det_eq_zero_of_pivot hrows hcols h0, h0]
      split_ifs <;> ring
    · rw [← hb, det_square_clear hbrows hbcols h0] at hsign
      split_ifs at hsign ⊢
      · rw [mul_assoc, hsign, one_mul]
      · rw [neg_mul, mul_assoc, hsign, neg_one_mul, mul_neg, neg_neg]

/-- Both ways to a determinant lead to it. -/
theorem det_eq {a : Mat ℝ} (h : a.IsSquare) : a.det = (a.square a.rows).det := by
  rw [det]
  split
  · exact expand_eq rfl (Eq.symm h)
  · rw [eliminate_eq rfl (Eq.symm h), one_mul]

end Mat

end SplitPlot
