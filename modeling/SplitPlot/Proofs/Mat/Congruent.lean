import Mathlib
import SplitPlot.ErrorMatrices
import SplitPlot.Proofs.Mat.CrossProduct
import SplitPlot.Proofs.Mat.Semidefinite

/-!
# Error matrices in other variables

When each variable of a model is replaced by a linear combination of the variables, its matrices of
sums of squares and cross products become congruent ones: `a' = q a qᵀ`, where the rows of `q` are
the combinations (`Mat.Congruent`).  It does not matter of what the products were formed and how
they were weighted (`congruent_of_products`), so this holds of error and hypothesis matrices alike.

* Under an orthogonal change the determinant and the trace stay (`Congruent.det_eq`,
  `Congruent.trace_eq`).
* A change that only reorders the variables and multiplies them by one number (`Mat.monomial`)
  carries the product of the diagonal along with the determinant.  So it also carries the
  determinant as it is reported, which is zero where it is small against that product
  (`Congruent.sscpDet_eq`).  An orthogonal change need not.
-/

namespace SplitPlot

namespace Mat

open Finset Matrix

/-- One matrix is another in other variables. -/
def Congruent (n : ℕ) (q : ℕ → ℕ → ℝ) (a a' : Mat ℝ) : Prop :=
  ∀ i < n, ∀ j < n, a'.get i j = ∑ k ∈ range n, ∑ l ∈ range n, q i k * q j l * a.get k l

/-- A change of variables as a matrix. -/
noncomputable def change (n : ℕ) (q : ℕ → ℕ → ℝ) : Matrix (Fin n) (Fin n) ℝ :=
  Matrix.of fun i k => q i k

variable {n : ℕ} {q : ℕ → ℕ → ℝ} {a a' b b' : Mat ℝ}

/-- Weighted sums of the products of variables are congruent to those of their combinations. -/
theorem congruent_of_products {ι : Type} {T : Finset ι} {w : ι → ℝ} {u v : ι → ℕ → ℝ}
    (ha : ∀ k < n, ∀ l < n, a.get k l = ∑ t ∈ T, w t * (u t k * u t l))
    (ha' : ∀ i < n, ∀ j < n, a'.get i j = ∑ t ∈ T, w t * (v t i * v t j))
    (hu : ∀ t ∈ T, ∀ i < n, v t i = ∑ k ∈ range n, q i k * u t k) : Congruent n q a a' := by
  intro i hi j hj
  have hterm : ∀ t ∈ T, w t * (v t i * v t j) =
      ∑ k ∈ range n, ∑ l ∈ range n, q i k * q j l * (w t * (u t k * u t l)) := by
    intro t ht
    rw [hu t ht i hi, hu t ht j hj, sum_mul_sum, mul_sum]
    refine sum_congr rfl fun k _ => ?_
    rw [mul_sum]
    exact sum_congr rfl fun l _ => by ring
  rw [ha' i hi j hj, sum_congr rfl hterm, sum_comm]
  refine sum_congr rfl fun k hk => ?_
  rw [sum_comm]
  refine sum_congr rfl fun l hl => ?_
  rw [ha k (mem_range.mp hk) l (mem_range.mp hl), mul_sum]

/-- Cross products are congruent if the rows of one matrix are the images of those of another. -/
theorem congruent_crossProduct {e e' : Mat ℝ} {σ : ℕ → ℕ} (hcols : e.cols = n)
    (hcols' : e'.cols = n)
    (hsum : ∀ g : ℕ → ℝ, ∑ i ∈ range e'.rows, g i = ∑ i ∈ range e.rows, g (σ i))
    (hget : ∀ i < e.rows, ∀ j < n, e'.get (σ i) j = ∑ k ∈ range n, q j k * e.get i k) :
    Congruent n q e.crossProduct e'.crossProduct := by
  refine congruent_of_products (T := range e.rows) (w := fun _ => 1) (u := e.get)
    (v := fun i => e'.get (σ i)) (fun k hk l hl => ?_) (fun i hi j hj => ?_)
    fun t ht => hget t (mem_range.mp ht)
  · rw [get_crossProduct_eq_sum (hk.trans_eq hcols.symm) (hl.trans_eq hcols.symm)]
    exact sum_congr rfl fun _ _ => (one_mul _).symm
  · rw [get_crossProduct_eq_sum (hi.trans_eq hcols'.symm) (hj.trans_eq hcols'.symm), hsum]
    exact sum_congr rfl fun _ _ => (one_mul _).symm

namespace Congruent

theorem add (h : Congruent n q a a') (hb : Congruent n q b b') (hrows : a.rows = n)
    (hsq : a.IsSquare) (hrows' : a'.rows = n) (hsq' : a'.IsSquare) :
    Congruent n q (a + b) (a' + b') := by
  intro i hi j hj
  have hget : ∀ {e f : Mat ℝ}, e.rows = n → e.IsSquare → ∀ {k l : ℕ}, k < n → l < n →
      (e + f).get k l = e.get k l + f.get k l := by
    intro e f he hesq k l hk hl
    exact get_add (hk.trans_eq he.symm) (hl.trans_eq (he.symm.trans hesq))
  rw [hget hrows' hsq' hi hj, h i hi j hj, hb i hi j hj, ← sum_add_distrib]
  refine sum_congr rfl fun k hk => ?_
  rw [← sum_add_distrib]
  refine sum_congr rfl fun l hl => ?_
  rw [hget hrows hsq (mem_range.mp hk) (mem_range.mp hl), mul_add]

theorem square_eq (h : Congruent n q a a') :
    a'.square n = change n q * a.square n * (change n q)ᵀ := by
  ext i j
  rw [square_apply, h i i.isLt j j.isLt, Matrix.mul_apply, sum_comm, ← Fin.sum_univ_eq_sum_range]
  refine sum_congr rfl fun l _ => ?_
  rw [Matrix.mul_apply, sum_mul, ← Fin.sum_univ_eq_sum_range]
  exact sum_congr rfl fun k _ => mul_right_comm _ _ _

section Orthogonal

variable (h : Congruent n q a a') (hrows : a.rows = n) (hrows' : a'.rows = n)
  (horth : change n q * (change n q)ᵀ = 1)

include h hrows hrows' horth

/-- The determinant does not notice an orthogonal change of the variables. -/
theorem det_eq (hsq : a.IsSquare) (hsq' : a'.IsSquare) : a'.det = a.det := by
  have hone := congrArg Matrix.det horth
  rw [Matrix.det_mul, Matrix.det_transpose, Matrix.det_one] at hone
  rw [Mat.det_eq hsq, Mat.det_eq hsq', hrows, hrows', h.square_eq, Matrix.det_mul, Matrix.det_mul,
    Matrix.det_transpose, mul_right_comm, hone, one_mul]

/-- Nor does the trace. -/
theorem trace_eq : a'.trace = a.trace := by
  rw [Mat.trace_eq, Mat.trace_eq, hrows, hrows', h.square_eq, Matrix.trace_mul_comm,
    ← Matrix.mul_assoc, mul_eq_one_comm.mp horth, Matrix.one_mul]

end Orthogonal

end Congruent

/-! ## Reordered and rescaled variables -/

/-- The change that takes the variables in another order and multiplies each by a number. -/
noncomputable def monomial (c : ℝ) (τ : ℕ → ℕ) (i k : ℕ) : ℝ := if k = τ i then c else 0

section Monomial

variable {c : ℝ} {τ : ℕ → ℕ}

theorem sum_monomial {i : ℕ} (hτ : τ i < n) (u : ℕ → ℝ) :
    ∑ k ∈ range n, monomial c τ i k * u k = c * u (τ i) := by
  simp only [monomial, ite_mul, zero_mul, sum_ite_eq', mem_range, if_pos hτ]

variable (hτ : ∀ i < n, τ i < n)

include hτ

theorem Congruent.get_monomial (h : Congruent n (monomial c τ) a a') {i j : ℕ} (hi : i < n)
    (hj : j < n) : a'.get i j = c ^ 2 * a.get (τ i) (τ j) := by
  have hinner : ∀ k, ∑ l ∈ range n, monomial c τ i k * monomial c τ j l * a.get k l =
      monomial c τ i k * (c * a.get k (τ j)) := fun k => by
    rw [← sum_monomial (hτ j hj) (a.get k), mul_sum]
    exact sum_congr rfl fun l _ => mul_assoc _ _ _
  rw [h i hi j hj, sum_congr rfl fun k _ => hinner k,
    sum_monomial (hτ i hi) fun k => c * a.get k (τ j), pow_two, mul_assoc]

section Determinant

variable (hinj : ∀ i < n, ∀ j < n, τ i = τ j → i = j)

include hinj

/-- The order of the variables, as a permutation of their numbers. -/
noncomputable def reordering : Fin n ≃ Fin n :=
  Equiv.ofBijective (fun i => ⟨τ i, hτ i i.isLt⟩) (Finite.injective_iff_bijective.mp fun i j hij =>
    Fin.ext (hinj i i.isLt j j.isLt (Fin.mk.inj_iff.mp hij)))

variable (h : Congruent n (monomial c τ) a a') (hrows : a.rows = n) (hrows' : a'.rows = n)

include h

theorem Congruent.square_monomial : a'.square n =
    c ^ 2 • (a.square n).submatrix (reordering hτ hinj) (reordering hτ hinj) := by
  ext i j
  exact h.get_monomial hτ i.isLt j.isLt

include hrows hrows'

theorem Congruent.product_diagonal_monomial :
    product a'.diagonal = c ^ (2 * n) * product a.diagonal := by
  rw [product_diagonal, product_diagonal, hrows, hrows', h.square_monomial hτ hinj]
  simp only [Matrix.smul_apply, Matrix.submatrix_apply, smul_eq_mul]
  rw [prod_mul_distrib, (reordering hτ hinj).prod_comp fun i => a.square n i i, prod_const,
    card_univ, Fintype.card_fin, ← pow_mul]

variable (hsq : a.IsSquare) (hsq' : a'.IsSquare)

include hsq hsq'

theorem Congruent.det_monomial : a'.det = c ^ (2 * n) * a.det := by
  rw [Mat.det_eq hsq, Mat.det_eq hsq', hrows, hrows', h.square_monomial hτ hinj, Matrix.det_smul,
    Fintype.card_fin, Matrix.det_submatrix_equiv_self, ← pow_mul]

/-- The determinant as it is reported, in reordered and rescaled variables. -/
theorem Congruent.sscpDet_eq (hc : c ≠ 0) : a'.sscpDet = c ^ (2 * n) * a.sscpDet :=
  sscpDet_mul ((even_two_mul n).pow_pos hc) (h.det_monomial hτ hinj hrows hrows' hsq hsq')
    (h.product_diagonal_monomial hτ hinj hrows hrows')

end Determinant

omit hτ in
/-- Where nothing is reordered or rescaled, the matrix is the same. -/
theorem Congruent.eq_of_monomial (h : Congruent n (monomial 1 id) a a') (hrows : a.rows = n)
    (hsq : a.IsSquare) (hrows' : a'.rows = n) (hsq' : a'.IsSquare) : a' = a := by
  refine ext_get (hrows'.trans hrows.symm) (hsq'.symm.trans (hrows'.trans (hrows.symm.trans hsq)))
    fun i j hi hj => ?_
  rw [h.get_monomial (fun i hi => hi) (hi.trans_eq hrows') (hj.trans_eq (hsq'.symm.trans hrows')),
    one_pow, one_mul]

end Monomial

end Mat

/-! ## Two models -/

namespace ErrorMatrices

/-- The models of one pair are those of another in other variables. -/
structure Congruent (n : ℕ) (q : ℕ → ℕ → ℝ) (m m' : ErrorMatrices ℝ) : Prop where
  full : Mat.Congruent n q m.full m'.full
  restricted : Mat.Congruent n q m.restricted m'.restricted
  rows_full : m.full.rows = n
  rows_full' : m'.full.rows = n
  rows_restricted : m.restricted.rows = n
  rows_restricted' : m'.restricted.rows = n

namespace Congruent

open Matrix

variable {n : ℕ} {m m' : ErrorMatrices ℝ}

/-- Determinants and traces do not notice an orthogonal change of the variables. -/
theorem det_trace_eq {q : ℕ → ℕ → ℝ} (h : Congruent n q m m')
    (horth : Mat.change n q * (Mat.change n q)ᵀ = 1) :
    m'.full.det = m.full.det ∧ m'.restricted.det = m.restricted.det ∧
      m'.full.trace = m.full.trace ∧ m'.restricted.trace = m.restricted.trace :=
  ⟨h.full.det_eq h.rows_full h.rows_full' horth m.full_square m'.full_square,
    h.restricted.det_eq h.rows_restricted h.rows_restricted' horth m.restricted_square
      m'.restricted_square,
    h.full.trace_eq h.rows_full h.rows_full' horth,
    h.restricted.trace_eq h.rows_restricted h.rows_restricted' horth⟩

/-- The determinants as they are reported, in reordered and rescaled variables. -/
theorem sscpDet_eq {c : ℝ} {τ : ℕ → ℕ} (h : Congruent n (Mat.monomial c τ) m m')
    (hτ : ∀ i < n, τ i < n) (hinj : ∀ i < n, ∀ j < n, τ i = τ j → i = j) (hc : c ≠ 0) :
    m'.fullDet = c ^ (2 * n) * m.fullDet ∧ m'.restrictedDet = c ^ (2 * n) * m.restrictedDet :=
  ⟨h.full.sscpDet_eq hτ hinj h.rows_full h.rows_full' m.full_square m'.full_square hc,
    h.restricted.sscpDet_eq hτ hinj h.rows_restricted h.rows_restricted' m.restricted_square
      m'.restricted_square hc⟩

theorem eq_of_monomial (h : Congruent n (Mat.monomial 1 id) m m') : m' = m := by
  have hfull := h.full.eq_of_monomial h.rows_full m.full_square h.rows_full' m'.full_square
  have hrestricted := h.restricted.eq_of_monomial h.rows_restricted m.restricted_square
    h.rows_restricted' m'.restricted_square
  cases m
  cases m'
  cases hfull
  cases hrestricted
  rfl

end Congruent

end ErrorMatrices

end SplitPlot
