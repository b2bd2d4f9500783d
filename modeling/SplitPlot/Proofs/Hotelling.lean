import Mathlib
import SplitPlot.Proofs.Decomposition.Closure
import SplitPlot.Proofs.Decomposition.Combinations
import SplitPlot.Proofs.Mat.Inverse
import SplitPlot.Proofs.Nesting

/-!
# Sources within subjects

A source within subjects asks whether the means of its contrast scores over all subjects are zero.
What the restricted model adds to the error is then of rank one: the products of these means, once
for each subject.  Everything that is reported of such a source is a function of one number, the
form that the inverse of the full error matrix takes at the means, times the number of subjects.

## One number

Let `h` be that number.  The determinant of the restricted error is that of the full one times
`1 + h` (`det_add_rankOne`), so Wilks' Lambda is `1 / (1 + h)` and the F statistic a multiple of
`h`.  The trace of Hotelling and Lawley is `h` itself (`trace_rankOne_mul`).  For Pillai's trace the
form is taken with the inverse of the restricted error, and the two forms determine each other
(`dotProduct_inv_rankOne`).

None of the four looks at any of the others.  The first two go through determinants, which are read
as zero near a singular matrix, the others through inverses, which are not; so the statement is
about matrices whose determinants are read as they are.
-/

namespace SplitPlot

open Finset Matrix

/-! ## Matrices of rank one -/

section RankOne

variable {n : Type} [Fintype n] [DecidableEq n] {A : Matrix n n ℝ} {v : n → ℝ}

omit [DecidableEq n] in
theorem trace_rankOne_mul (v : n → ℝ) (B : Matrix n n ℝ) :
    (vecMulVec v v * B).trace = v ⬝ᵥ (B *ᵥ v) := by
  rw [vecMulVec_mul, trace_vecMulVec, dotProduct_comm, dotProduct_mulVec]

/-- The form of the inverse before and after a matrix of rank one has been added. -/
theorem dotProduct_inv_rankOne (hA : IsUnit A.det) (hB : IsUnit (A + vecMulVec v v).det) :
    v ⬝ᵥ (A⁻¹ *ᵥ v) =
      (1 + v ⬝ᵥ (A⁻¹ *ᵥ v)) * (v ⬝ᵥ ((A + vecMulVec v v)⁻¹ *ᵥ v)) := by
  -- the sum takes the solution for one matrix to a multiple of the right-hand side
  have hsolve : (A + vecMulVec v v) *ᵥ (A⁻¹ *ᵥ v) = (1 + v ⬝ᵥ (A⁻¹ *ᵥ v)) • v := by
    rw [add_mulVec, mulVec_mulVec, mul_nonsing_inv A hA, one_mulVec, vecMulVec_mulVec, add_smul,
      one_smul, op_smul_eq_smul]
  have hsame : A⁻¹ *ᵥ v = (1 + v ⬝ᵥ (A⁻¹ *ᵥ v)) • ((A + vecMulVec v v)⁻¹ *ᵥ v) := by
    rw [← mulVec_smul, ← hsolve, mulVec_mulVec, nonsing_inv_mul _ hB, one_mulVec]
  conv_lhs => rw [hsame]
  rw [dotProduct_smul, smul_eq_mul]

omit [Fintype n] [DecidableEq n] in
theorem vecMulVec_sqrt_smul {c : ℝ} (hc : 0 ≤ c) (g : n → ℝ) :
    vecMulVec (√c • g) (√c • g) = c • vecMulVec g g := by
  rw [smul_vecMulVec, vecMulVec_smul, smul_smul, Real.mul_self_sqrt hc]

omit [DecidableEq n] in
theorem form_sqrt_smul {c : ℝ} (hc : 0 ≤ c) (g : n → ℝ) (B : Matrix n n ℝ) :
    (√c • g) ⬝ᵥ (B *ᵥ (√c • g)) = c * (g ⬝ᵥ (B *ᵥ g)) := by
  rw [mulVec_smul, smul_dotProduct, dotProduct_smul, smul_eq_mul, smul_eq_mul, ← mul_assoc,
    Real.mul_self_sqrt hc]

end RankOne

/-! ## Matrices of error -/

namespace Mat

theorem square_sub {a b : Mat ℝ} {n : ℕ} (ha : a.rows = n) (ha' : a.cols = n) (hb : b.rows = n)
    (hb' : b.cols = n) : (a - b).square n = a.square n - b.square n := by
  ext i j
  exact get_sub (ha.trans hb.symm) (ha'.trans hb'.symm) (ha.symm ▸ i.isLt) (ha'.symm ▸ j.isLt)

theorem trace_square {a : Mat ℝ} {n : ℕ} (h : a.rows = n) : a.trace = (a.square n).trace := by
  subst h
  exact trace_eq a

end Mat

namespace ErrorMatrices

namespace Nested

variable {m : ErrorMatrices ℝ} (hm : m.Nested)

include hm

/-- A determinant that is not read as zero is read as it is. -/
theorem fullDet_eq (hfull : m.fullDet ≠ 0) :
    m.fullDet = (m.full.square m.variableCount).det := by
  rw [fullDet, Mat.sscpDet_of_not_nearSingular m.full_square hm.posSemidef_full
    fun h => hfull (Mat.sscpDet_of_nearSingular h), Mat.det_eq m.full_square]
  rfl

theorem restrictedDet_eq (hrestricted : m.restrictedDet ≠ 0) :
    m.restrictedDet = (m.restricted.square m.variableCount).det := by
  rw [restrictedDet, Mat.sscpDet_of_not_nearSingular m.restricted_square hm.posSemidef_restricted
    fun h => hrestricted (Mat.sscpDet_of_nearSingular h), hm.det_restricted]

theorem trace_hypothesis_mul {b : Mat ℝ} (hb : b.cols = m.variableCount) :
    (m.hypothesis * b).trace = ((m.restricted.square m.variableCount -
      m.full.square m.variableCount) * b.square m.variableCount).trace := by
  have hcols : m.full.cols = m.variableCount := Eq.symm m.full_square
  have hcols' : m.restricted.cols = m.variableCount :=
    (Eq.symm m.restricted_square).trans hm.rows_eq
  have hrows : m.hypothesis.rows = m.variableCount := (Mat.rows_sub hm.rows_eq).trans hm.rows_eq
  have hhypothesis : m.hypothesis.cols = m.variableCount :=
    (Mat.cols_sub (hcols'.trans hcols.symm)).trans hcols'
  have hproduct : (m.hypothesis * b).rows = m.variableCount := hrows
  rw [Mat.trace_square hproduct, Mat.square_mul hrows hhypothesis hb, hypothesis,
    Mat.square_sub (n := m.variableCount) hm.rows_eq hcols' rfl hcols]

variable {v : Fin m.variableCount → ℝ}
  (hv : m.restricted.square m.variableCount = m.full.square m.variableCount + vecMulVec v v)

include hv

theorem hotellingLawleyTrace?_rankOne (hfull : m.fullDet ≠ 0) : m.hotellingLawleyTrace? =
    some (v ⬝ᵥ ((m.full.square m.variableCount)⁻¹ *ᵥ v)) := by
  have hdet := hm.fullDet_eq hfull ▸ hfull
  obtain ⟨b, hb, -, hcols, hinv⟩ := Mat.exists_inverse? rfl (Eq.symm m.full_square) hdet
  rw [hotellingLawleyTrace?, hb, Option.map_some, hm.trace_hypothesis_mul hcols, hv,
    add_sub_cancel_left, trace_rankOne_mul]
  exact congrArg (fun B => some (v ⬝ᵥ (B *ᵥ v))) hinv

omit hv in
theorem form_nonneg (v : Fin m.variableCount → ℝ) :
    0 ≤ v ⬝ᵥ ((m.full.square m.variableCount)⁻¹ *ᵥ v) :=
  hm.posSemidef_full.inv.dotProduct_mulVec_nonneg v

theorem restrictedDet_rankOne (hfull : m.fullDet ≠ 0) (hrestricted : m.restrictedDet ≠ 0) :
    m.restrictedDet =
      m.fullDet * (1 + v ⬝ᵥ ((m.full.square m.variableCount)⁻¹ *ᵥ v)) := by
  have hdet := hm.fullDet_eq hfull ▸ hfull
  rw [hm.restrictedDet_eq hrestricted, hv, det_add_rankOne (Ne.isUnit hdet), ← hm.fullDet_eq hfull]

theorem wilksLambda?_rankOne (hfull : m.fullDet ≠ 0) (hrestricted : m.restrictedDet ≠ 0) :
    m.wilksLambda? =
      some (1 / (1 + v ⬝ᵥ ((m.full.square m.variableCount)⁻¹ *ᵥ v))) := by
  have hpos : 0 < m.restrictedDet := (Mat.sscpDet_nonneg _).lt_of_ne hrestricted.symm
  rw [wilksLambda?, if_pos hpos, hm.restrictedDet_rankOne hv hfull hrestricted,
    div_mul_cancel_left₀ hfull, one_div]

theorem pillaiTrace?_rankOne (hfull : m.fullDet ≠ 0) (hrestricted : m.restrictedDet ≠ 0) :
    m.pillaiTrace? = some (v ⬝ᵥ ((m.full.square m.variableCount)⁻¹ *ᵥ v) /
      (1 + v ⬝ᵥ ((m.full.square m.variableCount)⁻¹ *ᵥ v))) := by
  have hdet := hm.fullDet_eq hfull ▸ hfull
  have hdet' := hm.restrictedDet_eq hrestricted ▸ hrestricted
  have hcols' : m.restricted.cols = m.variableCount :=
    (Eq.symm m.restricted_square).trans hm.rows_eq
  obtain ⟨b, hb, -, hcols, hinv⟩ :=
    Mat.exists_inverse? (n := m.variableCount) hm.rows_eq hcols' hdet'
  have hform := dotProduct_inv_rankOne (Ne.isUnit hdet) (hv ▸ Ne.isUnit hdet')
  have hpos : 0 < 1 + v ⬝ᵥ ((m.full.square m.variableCount)⁻¹ *ᵥ v) :=
    add_pos_of_pos_of_nonneg one_pos (hm.form_nonneg v)
  rw [pillaiTrace?, hb, Option.map_some, hm.trace_hypothesis_mul hcols, hinv, hv,
    add_sub_cancel_left, trace_rankOne_mul, Option.some_inj, eq_div_iff hpos.ne', mul_comm]
  exact hform.symm

/-- The test of a source within subjects whose determinants are read as they are. -/
theorem f_withinSubjects_rankOne (hfull : m.fullDet ≠ 0) (hrestricted : m.restrictedDet ≠ 0)
    {dfNum dfDen : ℝ} (hnum : 0 < dfNum) (hden : 0 < dfDen) :
    (Significance.withinSubjects m dfNum dfDen).degeneracy = none ∧
      (Significance.withinSubjects m dfNum dfDen).f =
        v ⬝ᵥ ((m.full.square m.variableCount)⁻¹ *ᵥ v) * dfDen / dfNum := by
  have hpos : 0 < m.fullDet := (Mat.sscpDet_nonneg _).lt_of_ne hfull.symm
  have hratio : (m.restrictedDet - m.fullDet) / dfNum / (m.fullDet / dfDen) =
      v ⬝ᵥ ((m.full.square m.variableCount)⁻¹ *ᵥ v) * dfDen / dfNum := by
    rw [hm.restrictedDet_rankOne hv hfull hrestricted]
    field_simp
    ring
  have hnonneg : 0 ≤ v ⬝ᵥ ((m.full.square m.variableCount)⁻¹ *ᵥ v) * dfDen / dfNum :=
    div_nonneg (mul_nonneg (hm.form_nonneg v) hden.le) hnum.le
  rw [Significance.withinSubjects, Significance.univariate_eq hnum hden hpos, hratio]
  exact ⟨rfl, max_eq_left hnonneg⟩

end Nested

/-- The form that the inverse of the full error takes at the means of the variables, once for each
subject. -/
noncomputable def hotellingForm (m : ErrorMatrices ℝ) (subjects : ℕ) (g : Fin m.variableCount → ℝ) :
    ℝ :=
  subjects * (g ⬝ᵥ ((m.full.square m.variableCount)⁻¹ *ᵥ g))

/-- With one variable the form is the squared mean by the error. -/
theorem hotellingForm_of_variableCount {m : ErrorMatrices ℝ} (hone : m.variableCount = 1)
    (subjects : ℕ) (g : ℕ → ℝ) :
    m.hotellingForm subjects (fun j => g j) = subjects * (g 0 ^ 2 / m.full.get 0 0) := by
  have hform : ∀ {n : ℕ} (_ : n = 1), (fun j : Fin n => g j) ⬝ᵥ
      ((m.full.square n)⁻¹ *ᵥ fun j : Fin n => g j) = g 0 ^ 2 / m.full.get 0 0 := by
    rintro n rfl
    rw [Matrix.inv_def, det_fin_one, adjugate_fin_one, Ring.inverse_eq_inv, smul_mulVec, one_mulVec,
      dotProduct_smul, dotProduct, Fin.sum_univ_one, smul_eq_mul, inv_mul_eq_div, ← pow_two]
    rfl
  rw [hotellingForm, hform hone]

end ErrorMatrices

/-! ## Contrast scores -/

/-- The means of contrast scores over all subjects. -/
noncomputable def ContrastScores.grandMean (D : ContrastScores ℝ) (n : ℕ) : Fin n → ℝ := fun j =>
  (∑ i ∈ range D.columns.rows, D.columns.get i j) / D.columns.rows

namespace Design

variable {d : Design ℝ} {s : Source}

/-- The degrees of freedom of a source are counted without rounding. -/
theorem sourceDf_eq (s : Source) :
    (d.sourceDf s : ℝ) = ((s.factors.map fun f => d.levelCount f - 1).prod : ℕ) := by
  rw [sourceDf, Significance.numeratorDf, product_eq_prod, Nat.cast_list_prod, List.map_map,
    List.map_map]
  rfl

namespace Accepted

variable (hd : d.Accepted) (hs : d.kindOf s = .within)

include hd

/-- The full error adds up the products of what the means of the cells leave of the scores. -/
theorem get_fullError (s : Source) {i j : ℕ}
    (hi : i < (d.contrastColumns (s.intersection d.withinMask)).cols)
    (hj : j < (d.contrastColumns (s.intersection d.withinMask)).cols) :
    (d.fullError s).get i j = ∑ k ∈ range d.subjectCount,
      ((d.contrastColumns (s.intersection d.withinMask)).get k i - CellStatistics.cellMean
          (d.contrastColumns (s.intersection d.withinMask)) d.subjectCells
          (d.subjectCells.getD k 0) i) *
        ((d.contrastColumns (s.intersection d.withinMask)).get k j - CellStatistics.cellMean
          (d.contrastColumns (s.intersection d.withinMask)) d.subjectCells
          (d.subjectCells.getD k 0) j) := by
  have hcols := cols_scoreResiduals (d := d) (s.intersection d.withinMask)
  rw [fullError, scoresWithin, Mat.get_crossProduct_eq_sum (hi.trans_eq hcols.symm)
    (hj.trans_eq hcols.symm), hd.rows_scoreResiduals]
  exact sum_congr rfl fun k hk => congrArg₂ (· * ·)
    (hd.get_scoreResiduals (s.intersection d.withinMask) (mem_range.mp hk) hi)
    (hd.get_scoreResiduals (s.intersection d.withinMask) (mem_range.mp hk) hj)

include hs

theorem intersection_within : s.intersection d.withinMask = s := by
  refine Source.toFinset_injective ?_
  rw [Source.toFinset_intersection, hd.toFinset_withinMask]
  exact hd.withinPart_eq_toFinset hs

/-- A source within subjects is tested on its own contrast scores. -/
theorem scoresWithin_eq : d.scoresWithin s = d.scoresOf s := by
  rw [scoresWithin, hd.intersection_within hs]

theorem variableCount_withinMatrices :
    (d.withinMatrices s).variableCount = (d.contrastColumns s).cols := by
  show (d.fullError s).rows = _
  rw [fullError, Mat.rows_crossProduct, hd.scoresWithin_eq hs, cols_scoreResiduals]

/-- A source within subjects has as many degrees of freedom as contrast scores. -/
theorem sourceDf_within : (d.sourceDf s : ℝ) = (d.contrastColumns s).cols := by
  rw [sourceDf_eq, hd.cols_contrastColumns_within hs]

theorem square_restricted_within : (d.withinMatrices s).restricted.square
      (d.withinMatrices s).variableCount =
    (d.withinMatrices s).full.square (d.withinMatrices s).variableCount + (d.subjectCount : ℝ) •
      vecMulVec ((d.scoresOf s).grandMean (d.withinMatrices s).variableCount)
        ((d.scoresOf s).grandMean (d.withinMatrices s).variableCount) := by
  rw [← sub_eq_iff_eq_add']
  refine (hd.sub_within s).trans (congrArg _ ?_)
  have hmean : (fun j : Fin (d.withinMatrices s).variableCount =>
      (d.scoresWithin s).cells.grandMeans.getD j 0) =
        (d.scoresOf s).grandMean (d.withinMatrices s).variableCount := by
    funext j
    have hrows := hd.rows_contrastColumns s
    rw [hd.scoresWithin_eq hs]
    exact CellStatistics.getD_grandMeans (hd.variableCount_withinMatrices hs ▸ j.isLt)
      (hrows ▸ hd.subjectCount_pos)
  exact congrArg (fun g => vecMulVec g g) hmean

end Accepted

/-- **Hotelling's test.**  The full error of a source within subjects is what the means of the cells
leave of its contrast scores, and the restricted error adds the products of their means over all
subjects, once for each subject.  Unless a determinant is read as zero, the trace of Hotelling and
Lawley, Wilks' Lambda, Pillai's trace and the F statistic are functions of one number, the form of
the inverse of the full error at these means. -/
theorem anova_hotelling {t : ObservationTable ℝ} (ht : t.Built) {settings : Settings}
    {d : Design ℝ} (h : ofTable t settings = .ok d) :
    ∃ table, anova t settings = .ok table ∧
      table.results.map (·.source) = Source.all d.factorCount ∧
      (∀ r ∈ table.results, r.kind = d.kindOf r.source) ∧
      ∀ r ∈ table.results, r.kind = .within → ∃ D m, d.contrastScores r.source = .ok D ∧
        r.matrices = some m ∧ D.columns.rows = d.subjectCount ∧
        m.variableCount = D.columns.cols ∧ m.restricted.rows = D.columns.cols ∧
        0 < D.columns.cols ∧ r.test.dfNum = D.columns.cols ∧
        r.test.dfDen = d.subjectCount - d.betweenCellCount - D.columns.cols + 1 ∧
        (∀ i < D.columns.cols, ∀ j < D.columns.cols, m.full.get i j =
          ∑ k ∈ range d.subjectCount,
            (D.columns.get k i - CellStatistics.cellMean D.columns d.subjectCells
                (d.subjectCells.getD k 0) i) *
              (D.columns.get k j - CellStatistics.cellMean D.columns d.subjectCells
                (d.subjectCells.getD k 0) j)) ∧
        m.restricted.square m.variableCount = m.full.square m.variableCount +
          (d.subjectCount : ℝ) •
            vecMulVec (D.grandMean m.variableCount) (D.grandMean m.variableCount) ∧
        (¬ m.full.NearSingular → ¬ m.restricted.NearSingular →
          m.hotellingLawleyTrace? =
            some (m.hotellingForm d.subjectCount (D.grandMean m.variableCount)) ∧
          m.wilksLambda? =
            some (1 / (1 + m.hotellingForm d.subjectCount (D.grandMean m.variableCount))) ∧
          m.pillaiTrace? =
            some (m.hotellingForm d.subjectCount (D.grandMean m.variableCount) /
              (1 + m.hotellingForm d.subjectCount (D.grandMean m.variableCount))) ∧
          ((0 : ℝ) < d.subjectCount - d.betweenCellCount - D.columns.cols + 1 →
            r.test.degeneracy = none ∧
            r.test.f = m.hotellingForm d.subjectCount (D.grandMean m.variableCount) *
              (d.subjectCount - d.betweenCellCount - D.columns.cols + 1) / D.columns.cols)) := by
  have hd := accepted_of_ofTable ht h
  refine ⟨_, anova_eq_ok ht h, map_source_results settings _, kind_of_mem_results settings,
    fun r hr hkind => ?_⟩
  obtain ⟨s, -, rfl⟩ := List.mem_map.mp hr
  have hs : d.kindOf s = .within := (kind_resultOf settings s).symm.trans hkind
  have hm := hd.nested_within s
  have hcount := hd.variableCount_withinMatrices hs
  have hpos : 0 < (d.contrastColumns s).cols := by
    rw [hd.cols_contrastColumns_within hs]
    refine Nat.pos_of_ne_zero (List.prod_ne_zero fun hzero => ?_)
    obtain ⟨f, hf, hlevels⟩ := List.mem_map.mp hzero
    have htwo := two_le_levelCount ht h (hd.mem_withinFactors_of_mem_factors hs hf)
    omega
  rw [source_resultOf, test_within settings hs, hd.sourceDf_within hs]
  refine ⟨_, _, hd.contrastScores_eq_ok hs, matrices_within settings hs, hd.rows_contrastColumns s,
    hcount, hm.rows_eq.trans hcount, hpos, Significance.dfNum_univariate _ _ _ _,
    Significance.dfDen_univariate _ _ _ _, fun i hi j hj => ?_, hd.square_restricted_within hs,
    fun hfull hrestricted => ?_⟩
  · have hentry := hd.get_fullError s (i := i) (j := j)
    rw [hd.intersection_within hs] at hentry
    exact hentry hi hj
  have hfull := (hm.fullDet_pos_iff.mpr hfull).ne'
  have hrestricted := (hm.restrictedDet_pos_iff.mpr hrestricted).ne'
  -- what is added is of rank one, with the root of the number of subjects on either side
  have hsubjects : (0 : ℝ) ≤ d.subjectCount := Nat.cast_nonneg _
  have hv := hd.square_restricted_within hs
  rw [← vecMulVec_sqrt_smul hsubjects] at hv
  have htrace := hm.hotellingLawleyTrace?_rankOne hv hfull
  have hwilks := hm.wilksLambda?_rankOne hv hfull hrestricted
  have hpillai := hm.pillaiTrace?_rankOne hv hfull hrestricted
  have hf := fun (dfDen : ℝ) (hden : 0 < dfDen) =>
    hm.f_withinSubjects_rankOne hv hfull hrestricted (Nat.cast_pos.mpr hpos) hden
  rw [form_sqrt_smul hsubjects] at htrace hwilks hpillai
  simp only [form_sqrt_smul hsubjects] at hf
  exact ⟨htrace, hwilks, hpillai, hf _⟩

/-! ## Paired measurements of two groups -/

/-- The design of two groups of two subjects, each measured twice. -/
noncomputable def crossedDesign : Design ℝ := (tableCoding crossedGroups {}).toDesign

theorem ofTable_crossedDesign : ofTable crossedGroups {} = .ok crossedDesign :=
  ofTable_crossedGroups

theorem accepted_crossedDesign : crossedDesign.Accepted :=
  accepted_of_ofTable built_crossedGroups ofTable_crossedDesign

/-- The contrast scores are the differences of the two measurements. -/
theorem get_contrastColumns_crossedDesign {k : ℕ} (hk : k < 4) :
    (crossedDesign.contrastColumns (.span [1])).get k 0 = [2, 4, 1, 8].getD k 0 / √2 := by
  have hflags : crossedDesign.flags crossedDesign.withinFactors (.span [1]) = [(2, true)] := by
    decide
  have hscore : crossedDesign.score k [0] = [3, 4, 6, 1].getD k 0 ∧
      crossedDesign.score k [1] = [5, 8, 7, 9].getD k 0 := by
    interval_cases k
    all_goals exact ⟨(mean_singleton _).trans (by simp), (mean_singleton _).trans (by simp)⟩
  rw [accepted_crossedDesign.get_contrastColumns_two hflags hk, hscore.1, hscore.2]
  interval_cases k <;> norm_num

theorem get_scoreResiduals_crossedDesign {k : ℕ} (hk : k < 4) :
    (crossedDesign.scoreResiduals (crossedDesign.scoresOf (.span [1]))).get k 0 =
      [-1, 1, -7 / 2, 7 / 2].getD k 0 / √2 := by
  have hcells : crossedDesign.subjectCells = [0, 0, 1, 1] := by decide
  have hrows : ∀ cell < 2, CellStatistics.rowsIn [0, 0, 1, 1] cell = {2 * cell, 2 * cell + 1} := by
    decide
  have hcount : ∀ cell < 2, ([0, 0, 1, 1] : List ℕ).count cell = 2 := by decide
  have hmean : ∀ cell < 2, CellStatistics.cellMean (crossedDesign.contrastColumns (.span [1]))
      [0, 0, 1, 1] cell 0 = [3, 9 / 2].getD cell 0 / √2 := fun cell hcell => by
    rw [CellStatistics.cellMean_eq, hrows cell hcell, hcount cell hcell, sum_pair (by omega),
      get_contrastColumns_crossedDesign (by omega), get_contrastColumns_crossedDesign (by omega),
      ← add_div, div_right_comm]
    refine congrArg (· / √2) ?_
    interval_cases cell <;> norm_num
  have hcell : ([0, 0, 1, 1] : List ℕ).getD k 0 < 2 := by
    interval_cases k <;> decide
  rw [accepted_crossedDesign.get_scoreResiduals _ hk (by decide), hcells, hmean _ hcell,
    get_contrastColumns_crossedDesign hk, ← sub_div]
  refine congrArg (· / √2) ?_
  interval_cases k <;> norm_num

theorem get_fullError_crossedDesign : (crossedDesign.fullError (.span [1])).get 0 0 = 53 / 4 := by
  have hkind : crossedDesign.kindOf (.span [1]) = .within := by decide
  have hrows := accepted_crossedDesign.rows_scoreResiduals (.span [1])
  have hfour : crossedDesign.subjectCount = 4 := by decide
  have hsquare : ∀ k ∈ range 4,
      (crossedDesign.scoreResiduals (crossedDesign.scoresOf (.span [1]))).get k 0 *
        (crossedDesign.scoreResiduals (crossedDesign.scoresOf (.span [1]))).get k 0 =
          ([-1, 1, -7 / 2, 7 / 2] : List ℝ).getD k 0 *
            ([-1, 1, -7 / 2, 7 / 2] : List ℝ).getD k 0 / 2 :=
    fun k hk => by
      rw [get_scoreResiduals_crossedDesign (mem_range.mp hk), div_mul_div_comm,
        Real.mul_self_sqrt two_pos.le]
  rw [fullError, accepted_crossedDesign.scoresWithin_eq hkind,
    Mat.get_crossProduct_eq_sum (by decide) (by decide), hrows, hfour, sum_congr rfl hsquare]
  simp only [sum_range_succ, sum_range_zero]
  norm_num

/-- The number from which all statistics are formed. -/
theorem hotellingForm_crossedDesign : (crossedDesign.withinMatrices (.span [1])).hotellingForm
    crossedDesign.subjectCount ((crossedDesign.scoresOf (.span [1])).grandMean _) = 225 / 106 := by
  have hmean : (∑ k ∈ range 4, (crossedDesign.contrastColumns (.span [1])).get k 0) / 4 =
      15 / 4 / √2 := by
    rw [sum_congr rfl fun k hk => get_contrastColumns_crossedDesign (mem_range.mp hk), ← sum_div,
      div_right_comm]
    refine congrArg (· / 4 / √2) ?_
    simp only [sum_range_succ, sum_range_zero]
    norm_num
  have herror : (crossedDesign.withinMatrices (.span [1])).full.get 0 0 = 53 / 4 :=
    get_fullError_crossedDesign
  refine (ErrorMatrices.hotellingForm_of_variableCount rfl 4 fun j =>
    (∑ k ∈ range 4, (crossedDesign.contrastColumns (.span [1])).get k j) / 4).trans ?_
  rw [hmean, herror, div_pow, Real.sq_sqrt two_pos.le]
  norm_num

theorem not_nearSingular_crossedDesign :
    ¬ (crossedDesign.withinMatrices (.span [1])).full.NearSingular ∧
      ¬ (crossedDesign.withinMatrices (.span [1])).restricted.NearSingular := by
  have hnested := accepted_crossedDesign.nested_within (.span [1])
  have hone : (crossedDesign.withinMatrices (.span [1])).variableCount = 1 := rfl
  have hpos : 0 < (crossedDesign.withinMatrices (.span [1])).fullDet := by
    rw [hnested.fullDet_of_variableCount hone]
    refine lt_of_lt_of_eq ?_ get_fullError_crossedDesign.symm
    norm_num
  have hpos' := hpos.trans_le (hnested.fullDet_le_restrictedDet_of_variableCount hone)
  exact ⟨hnested.fullDet_pos_iff.mp hpos, hnested.restrictedDet_pos_iff.mp hpos'⟩

/-- The differences of both groups are tested against their error inside the groups. -/
theorem hotelling_crossedGroups : crossedGroups.Built ∧
    ofTable crossedGroups {} = .ok crossedDesign ∧
    ∃ table, anova crossedGroups {} = .ok table ∧ ∃ r ∈ table.results, r.kind = .within ∧
      r.test.f = 225 / 53 ∧ ∃ m, r.matrices = some m ∧ m.hotellingLawleyTrace? = some (225 / 106) ∧
        m.wilksLambda? = some (106 / 331) ∧ m.pillaiTrace? = some (225 / 331) := by
  obtain ⟨table, htable, -, -, hwithin⟩ :=
    anova_hotelling built_crossedGroups ofTable_crossedDesign
  have hkind : crossedDesign.kindOf (.span [1]) = .within := by decide
  have hmem : crossedDesign.resultOf {} (.span [1]) ∈ table.results :=
    resultOf_mem_results built_crossedGroups ofTable_crossedDesign htable (by decide)
  have hrkind := (kind_resultOf {} (.span [1])).trans hkind
  obtain ⟨D, m, hD, hm, -, -, -, -, -, -, -, -, hstatistics⟩ := hwithin _ hmem hrkind
  rw [source_resultOf, accepted_crossedDesign.contrastScores_eq_ok hkind] at hD
  rw [matrices_within {} hkind, Option.some.injEq] at hm
  obtain rfl := Except.ok.inj hD
  subst hm
  obtain ⟨hfull, hrestricted⟩ := not_nearSingular_crossedDesign
  obtain ⟨htrace, hwilks, hpillai, hf⟩ := hstatistics hfull hrestricted
  have hdfNum : (((crossedDesign.scoresOf (.span [1])).columns.cols : ℕ) : ℝ) = 1 := Nat.cast_one
  have hdfDen : (crossedDesign.subjectCount - crossedDesign.betweenCellCount -
      ((crossedDesign.scoresOf (.span [1])).columns.cols : ℕ) + 1 : ℝ) = 2 := by
    show ((4 : ℕ) - (2 : ℕ) - (1 : ℕ) + 1 : ℝ) = 2
    norm_num
  rw [hotellingForm_crossedDesign] at htrace hwilks hpillai
  have hf := (hf (hdfDen.symm ▸ two_pos)).2
  rw [hotellingForm_crossedDesign, hdfDen, hdfNum] at hf
  refine ⟨built_crossedGroups, ofTable_crossedDesign, table, htable, _, hmem, hrkind, ?_, _,
    matrices_within {} hkind, htrace, ?_, ?_⟩
  · rw [hf]
    norm_num
  · rw [hwilks]
    norm_num
  · rw [hpillai]
    norm_num

end Design

end SplitPlot
