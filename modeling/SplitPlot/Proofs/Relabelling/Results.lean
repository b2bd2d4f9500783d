import Mathlib
import SplitPlot.Proofs.Decomposition.Closure
import SplitPlot.Proofs.Relabelling.Scores

/-!
# The results of relabelled designs

The matrices of a source are formed from the scores of its factors within subjects, and those are
carried along (`Relabelling.carries_scoreMatrix`).  So the error matrices of corresponding sources
are congruent (`congruent_withinMatrices`, `congruent_mixedMatrices`), and the sums of squares of a
source between subjects are multiplied by the square of the scale (`sums_between`).

* Whatever happens to the levels within subjects, true determinants and traces stay if no value is
  rescaled (`det_trace_eq`).
* Where the levels of the factors within subjects of a source keep their order, its whole test is
  the old one in another unit (`test_eq_rescale`).
* Where in addition the factors stay in place, the effect is the old one at the cells that show the
  same levels (`get_effect_eq`), and without rescaling the matrices are the same (`matrices_eq`).
-/

namespace SplitPlot

open Finset

namespace Design

variable {d : Design ℝ}

/-! ## Models on the scores of the factors within subjects -/

/-- The error of the subject means as an error matrix with one entry. -/
theorem meanErrorSs_eq_get : d.meanErrorSs =
    ((d.statistics (d.scoreMatrix ∅)).residuals (d.scoreMatrix ∅) d.subjectCells).crossProduct.get
      0 0 := by
  rw [scoreMatrix_empty, Mat.get_crossProduct_eq_sum Nat.one_pos Nat.one_pos, meanErrorSs,
    total_eq_sum, Mat.sum_map_entries rfl]
  rfl

namespace Accepted

variable (hd : d.Accepted) {s : Source}

include hd

theorem withinPart_eq_empty (h : d.kindOf s = .between) : d.withinPart s = ∅ :=
  disjoint_iff_inter_eq_empty.mp (hd.kindOf_eq_between_iff.mp h)

theorem withinPart_ne_empty (h : d.kindOf s ≠ .between) : d.withinPart s ≠ ∅ := fun hempty =>
  h (hd.kindOf_eq_between_iff.mpr (disjoint_iff_inter_eq_empty.mpr hempty))

variable (hs : d.withinPart s ≠ ∅)

include hs

theorem scoreResiduals_eq : d.scoreResiduals (d.scoresWithin s) =
    (d.statistics (d.scoreMatrix (d.withinPart s))).residuals (d.scoreMatrix (d.withinPart s))
      d.subjectCells := by
  rw [hd.scoreMatrix_withinPart hs]
  rfl

theorem fullError_eq : d.fullError s =
    ((d.statistics (d.scoreMatrix (d.withinPart s))).residuals (d.scoreMatrix (d.withinPart s))
      d.subjectCells).crossProduct := by
  rw [fullError, hd.scoreResiduals_eq hs]

theorem size_scoresWithin : (d.scoresWithin s).size = (d.scoreMatrix (d.withinPart s)).cols := by
  rw [hd.scoreMatrix_withinPart hs]
  rfl

theorem rows_fullError : (d.fullError s).rows = (d.scoreMatrix (d.withinPart s)).cols := by
  rw [hd.fullError_eq hs]
  rfl

theorem withinRestrictedError_eq : d.withinRestrictedError s =
    (((d.statistics (d.scoreMatrix (d.withinPart s))).residuals (d.scoreMatrix (d.withinPart s))
      d.subjectCells).addRow
        (d.statistics (d.scoreMatrix (d.withinPart s))).grandMeans).crossProduct := by
  rw [withinRestrictedError, hd.scoreResiduals_eq hs, hd.statistics_scoresWithin hs]

omit hs in
/-- The error matrices of a source have a row for each score of its factors within subjects. -/
theorem exists_matrices (settings : Settings) (hkind : d.kindOf s ≠ .between) :
    ∃ m, (d.resultOf settings s).matrices = some m ∧
      m.variableCount = (d.scoreMatrix (d.withinPart s)).cols := by
  have hrows := hd.rows_fullError (hd.withinPart_ne_empty hkind)
  cases h : d.kindOf s with
  | between => exact absurd h hkind
  | within => exact ⟨_, matrices_within settings h, hrows⟩
  | mixed => exact ⟨_, matrices_mixed settings h, hrows⟩

end Accepted

/-! ## Effects on the scores of the factors within subjects -/

namespace Accepted

variable (hd : d.Accepted) {s : Source} (settings : Settings)

include hd

/-- A source that is not within subjects has the effect of the scores of its factors within. -/
theorem effect_eq_pureEffect (hkind : d.kindOf s ≠ .within) :
    (d.resultOf settings s).effect.values =
      d.pureEffect (d.statistics (d.scoreMatrix (d.withinPart s))) s := by
  cases h : d.kindOf s with
  | between =>
    rw [effect_between settings h, hd.withinPart_eq_empty h, scoreMatrix_empty]
    rfl
  | within => exact absurd h hkind
  | mixed =>
    rw [effect_mixed settings h,
      hd.statistics_scoresWithin (hd.withinPart_ne_empty (by rw [h]; exact nofun))]

/-- An effect has one axis for each factor between subjects and one for the variables. -/
theorem shape_effect : (d.resultOf settings s).effect.values.shape =
    keptShape (d.flags d.betweenFactors s) ++ [(d.scoreMatrix (d.withinPart s)).cols] := by
  by_cases h : d.kindOf s = .within
  · have hne := hd.withinPart_ne_empty (by rw [h]; exact nofun)
    rw [effect_within settings h, ← hd.size_scoresWithin hne, hd.keptShape_within h]
    rfl
  · rw [hd.effect_eq_pureEffect settings h, shape_pureEffect]

/-- The effect of a source within subjects is the grand mean of each variable. -/
theorem get_effect_within (hkind : d.kindOf s = .within) {x : List ℕ} {j : ℕ}
    (hx : x ∈ positions (keptShape (d.flags d.betweenFactors s)))
    (hj : j < (d.scoreMatrix (d.withinPart s)).cols) :
    (d.resultOf settings s).effect.values.get (x ++ [j]) =
      (d.statistics (d.scoreMatrix (d.withinPart s))).grandMeans.getD j 0 := by
  have hne := hd.withinPart_ne_empty (by rw [hkind]; exact nofun)
  have hshape := hd.shape_effect (s := s) settings
  have hin := inBounds_concat (mem_positions.mp hx) hj
  rw [← hshape] at hin
  rw [effect_within settings hkind] at hin ⊢
  have hin : InBounds (x ++ [j]) (d.grandEffect (d.scoresWithin s)).shape := hin
  show (d.grandEffect (d.scoresWithin s)).get _ = _
  rw [grandEffect, Grid.shape_ofFn] at hin
  rw [← hd.statistics_scoresWithin hne, grandEffect, Grid.get_ofFn _ hin, List.getLastD_concat]

end Accepted

namespace Relabelling

variable {d' : Design ℝ} (r : Relabelling d d') (hd : d.Accepted) (hd' : d'.Accepted)
  {s s' : Source} (hs' : s'.toFinset = s.toFinset.image r.factor)

theorem withinPart_subset (d : Design ℝ) (s : Source) :
    d.withinPart s ⊆ d.withinFactors.toFinset := inter_subset_right

include hs' in
theorem withinPart_image_ne_empty (hne : d.withinPart s ≠ ∅) : d'.withinPart s' ≠ ∅ := by
  rw [r.withinPart_image hs', Ne, image_eq_empty]
  exact hne

include hd hd' hs'

/-! ## Congruent models -/

section Congruent

variable {q : ℕ → ℕ → ℝ} {c : ℕ → ℝ}
  (h : r.Carries q c (d.scoreMatrix (d.withinPart s)) (d'.scoreMatrix (d'.withinPart s')))

include h

/-- The sums of squares of a source between subjects are carried along with the subject means. -/
theorem congruent_between (hs : s ∈ Source.all d.factorCount) (hkind : d.kindOf s = .between) :
    Mat.Congruent 1 q (d.hypothesis d.meanStatistics s) (d'.hypothesis d'.meanStatistics s') ∧
      d'.meanErrorSs = q 0 0 ^ 2 * d.meanErrorSs := by
  have hkind' : d'.kindOf s' = .between := (r.kindOf_image hd hd' hs').trans hkind
  have hne := hd.betweenPart_ne_empty hs (by rw [hkind]; exact nofun)
  rw [hd.withinPart_eq_empty hkind, hd'.withinPart_eq_empty hkind'] at h
  have hcols : (d.scoreMatrix ∅).cols = 1 := cols_scoreMatrix_empty
  constructor
  · have hhypothesis := h.congruent_hypothesis hd hd' hs' (hd.mem_all_iff.mp hs).1 hne
    rw [hcols, scoreMatrix_empty, scoreMatrix_empty] at hhypothesis
    exact hhypothesis
  · have hresiduals := h.congruent_residuals hd hd' 0 (hcols ▸ Nat.one_pos) 0 (hcols ▸ Nat.one_pos)
    rw [hcols, sum_range_one, sum_range_one] at hresiduals
    rw [meanErrorSs_eq_get, meanErrorSs_eq_get, hresiduals, pow_two]

variable (hne : d.withinPart s ≠ ∅)

include hne

theorem congruent_fullError :
    Mat.Congruent (d.scoreMatrix (d.withinPart s)).cols q (d.fullError s) (d'.fullError s') := by
  rw [hd.fullError_eq hne, hd'.fullError_eq (r.withinPart_image_ne_empty hs' hne)]
  exact h.congruent_residuals hd hd'

theorem rows_fullError_eq : (d.fullError s).rows = (d.scoreMatrix (d.withinPart s)).cols ∧
    (d'.fullError s').rows = (d.scoreMatrix (d.withinPart s)).cols :=
  ⟨hd.rows_fullError hne,
    (hd'.rows_fullError (r.withinPart_image_ne_empty hs' hne)).trans h.cols_eq⟩

/-- The error matrices of a source within subjects, if no fixed row is added. -/
theorem congruent_withinMatrices
    (hc : ∀ j < (d.scoreMatrix (d.withinPart s)).cols, c j = 0) :
    ErrorMatrices.Congruent (d.scoreMatrix (d.withinPart s)).cols q (d.withinMatrices s)
      (d'.withinMatrices s') := by
  have hne' := r.withinPart_image_ne_empty hs' hne
  obtain ⟨hrows, hrows'⟩ := r.rows_fullError_eq hd hd' hs' h hne
  have hfull := r.congruent_fullError hd hd' hs' h hne
  refine ⟨hfull, ?_, hrows, hrows', ?_, ?_⟩
  · show Mat.Congruent _ q (d.withinRestrictedError s) (d'.withinRestrictedError s')
    rw [hd.withinRestrictedError_eq hne, hd'.withinRestrictedError_eq hne']
    exact h.congruent_restored hd hd' hc
  · show (d.withinRestrictedError s).rows = _
    rw [hd.withinRestrictedError_eq hne]
    rfl
  · show (d'.withinRestrictedError s').rows = _
    rw [hd'.withinRestrictedError_eq hne']
    exact h.cols_eq

/-- The error matrices of a source with factors of both kinds. -/
theorem congruent_mixedMatrices (hs : s ∈ Source.all d.factorCount) (hkind : d.kindOf s = .mixed) :
    ErrorMatrices.Congruent (d.scoreMatrix (d.withinPart s)).cols q (d.mixedMatrices s)
      (d'.mixedMatrices s') := by
  have hne' := r.withinPart_image_ne_empty hs' hne
  have hbetween := hd.betweenPart_ne_empty hs (by rw [hkind]; exact nofun)
  obtain ⟨hrows, hrows'⟩ := r.rows_fullError_eq hd hd' hs' h hne
  have hhypothesis := h.congruent_hypothesis hd hd' hs' (hd.mem_all_iff.mp hs).1 hbetween
  rw [← hd.statistics_scoresWithin hne, ← hd'.statistics_scoresWithin hne'] at hhypothesis
  have hfull := r.congruent_fullError hd hd' hs' h hne
  refine ⟨hfull, ?_, hrows, hrows', ?_, ?_⟩
  · exact hfull.add hhypothesis hrows (Mat.isSquare_crossProduct _) hrows'
      (Mat.isSquare_crossProduct _)
  · exact (Mat.rows_add _ _).trans hrows
  · exact (Mat.rows_add _ _).trans hrows'

end Congruent

/-! ## Tests -/

variable (hs : s ∈ Source.all d.factorCount)

include hs

/-- Renamed levels leave true determinants and traces as they are. -/
theorem det_trace_eq (hscale : r.scale = 1) (hkind : d.kindOf s ≠ .between)
    (settings settings' : Settings) : ∃ m m', (d.resultOf settings s).matrices = some m ∧
      (d'.resultOf settings' s').matrices = some m' ∧
        m'.full.det = m.full.det ∧ m'.restricted.det = m.restricted.det ∧
          m'.full.trace = m.full.trace ∧ m'.restricted.trace = m.restricted.trace := by
  have hne := hd.withinPart_ne_empty hkind
  have hkind' := r.kindOf_image hd hd' hs'
  have hcarries := r.carries_scoreMatrix hd hd' (withinPart_subset d s)
  rw [← r.withinPart_image hs'] at hcarries
  have horth := r.change_mul_transpose hd hd' (withinPart_subset d s) rfl
  have hchange :
      (fun j k => r.scale * r.change (d.withinPart s) j k) = r.change (d.withinPart s) := by
    simp only [hscale, one_mul]
  rw [hchange] at hcarries
  cases h : d.kindOf s with
  | between => exact absurd h hkind
  | within =>
    refine ⟨_, _, matrices_within settings h, matrices_within settings' (hkind'.trans h),
      (r.congruent_withinMatrices hd hd' hs' hcarries hne fun j _ => if_neg hne).det_trace_eq horth⟩
  | mixed =>
    refine ⟨_, _, matrices_mixed settings h, matrices_mixed settings' (hkind'.trans h),
      (r.congruent_mixedMatrices hd hd' hs' hcarries hne hs h).det_trace_eq horth⟩

section InOrder

variable (hlevel : ∀ f ∈ d.withinPart s, ∀ i < d.levelCount f, r.level f i = i)

include hlevel

/-- Where the levels of the factors within subjects keep their order, the test is the old one in
another unit. -/
theorem test_eq_rescale (hscale : r.scale ≠ 0) {settings settings' : Settings}
    (hsettings : settings'.lambdaTest = settings.lambdaTest) : (d'.resultOf settings' s').test =
      (d.resultOf settings s).test.rescale
        (r.scale ^ (2 * (d.scoreMatrix (d.withinPart s)).cols)) := by
  obtain ⟨τ, hτ, hinj, hcarries⟩ :=
    r.exists_carries_monomial hd hd' (withinPart_subset d s) hlevel
  rw [← r.withinPart_image hs'] at hcarries
  have hkind' := r.kindOf_image hd hd' hs'
  have hdf := r.sourceDf_image hd hs' (hd.mem_all_iff.mp hs).1
  have hpos : 0 < r.scale ^ (2 * (d.scoreMatrix (d.withinPart s)).cols) :=
    (even_two_mul _).pow_pos hscale
  cases hkind : d.kindOf s with
  | between =>
    obtain ⟨hss, herror⟩ := r.congruent_between hd hd' hs' hcarries hs hkind
    have hcols : (d.scoreMatrix (d.withinPart s)).cols = 1 := by
      rw [hd.withinPart_eq_empty hkind, cols_scoreMatrix_empty]
    rw [hcols] at hτ hpos ⊢
    have hzero : τ 0 = 0 := Nat.lt_one_iff.mp (hτ 0 Nat.one_pos)
    have hss := hss.get_monomial hτ Nat.one_pos Nat.one_pos
    rw [hzero] at hss
    rw [Mat.monomial, hzero, if_pos rfl] at herror
    rw [test_between settings hkind, test_between settings' (hkind'.trans hkind), hdf, hss, herror,
      r.subjectCount_eq, r.betweenCellCount_eq, ← Significance.univariate_mul hpos]
  | within =>
    have hne := hd.withinPart_ne_empty (by rw [hkind]; decide)
    obtain ⟨hfull, hrestricted⟩ := (r.congruent_withinMatrices hd hd' hs' hcarries hne
      fun j _ => if_neg hne).sscpDet_eq hτ hinj hscale
    rw [test_within settings hkind, test_within settings' (hkind'.trans hkind), hdf,
      r.subjectCount_eq, r.betweenCellCount_eq,
      Significance.withinSubjects_mul hpos hfull hrestricted]
  | mixed =>
    have hne := hd.withinPart_ne_empty (by rw [hkind]; decide)
    have hcongruent := r.congruent_mixedMatrices hd hd' hs' hcarries hne hs hkind
    obtain ⟨hfull, hrestricted⟩ := hcongruent.sscpDet_eq hτ hinj hscale
    have hcount : (d'.mixedMatrices s').variableCount = (d.mixedMatrices s).variableCount :=
      hcongruent.rows_full'.trans hcongruent.rows_full.symm
    rw [test_mixed settings hkind, test_mixed settings' (hkind'.trans hkind), hdf, hsettings,
      r.subjectCount_eq, r.betweenCellCount_eq,
      Significance.multivariate_mul hpos hfull hrestricted hcount]

/-- Without rescaling the test is the same. -/
theorem test_eq (hscale : r.scale = 1) {settings settings' : Settings}
    (hsettings : settings'.lambdaTest = settings.lambdaTest) :
    (d'.resultOf settings' s').test = (d.resultOf settings s).test := by
  rw [r.test_eq_rescale hd hd' hs' hs hlevel (hscale ▸ one_ne_zero) hsettings, hscale, one_pow,
    Significance.rescale_one]

end InOrder

end Relabelling

/-! ## Factors in place -/

namespace Relabelling

variable {d' : Design ℝ} (r : Relabelling d d') (hd : d.Accepted) (hd' : d'.Accepted)
  (hfactor : r.factor = 1) {s : Source}
  (hlevel : ∀ f ∈ d.withinPart s, ∀ i < d.levelCount f, r.level f i = i)
  (settings settings' : Settings)

include hfactor

theorem toFinset_eq_image (s : Source) : s.toFinset = s.toFinset.image r.factor :=
  (r.image_eq_self hfactor _).symm

theorem withinPart_eq_self (s : Source) : d'.withinPart s = d.withinPart s := by
  rw [r.withinPart_image (r.toFinset_eq_image hfactor s), r.image_eq_self hfactor]

theorem betweenPart_eq_self (s : Source) : d'.betweenPart s = d.betweenPart s := by
  rw [r.betweenPart_image (r.toFinset_eq_image hfactor s), r.image_eq_self hfactor]

/-- A cell that shows the new levels on a set of factors agrees there with the moved one. -/
theorem agree_move_of_levelAt {B : Finset ℕ} {x y : List ℕ}
    (hxy : ∀ f ∈ B, levelAt d.betweenFactors y f = r.level f (levelAt d.betweenFactors x f)) :
    Agree d'.betweenFactors B (r.between.move x) y := by
  intro f hf hB
  have hself : r.between.factor f = f := congrArg (fun e : Equiv.Perm ℕ => e f) hfactor
  have hmove := r.between.levelAt_move (r.betweenFactors_eq hfactor ▸ hf) x
  rw [hself] at hmove
  exact hmove.trans ((hxy f hB).symm.trans (by rw [r.betweenFactors_eq hfactor]))

include hd hd'

theorem kindOf_eq_self (s : Source) : d'.kindOf s = d.kindOf s :=
  r.kindOf_image hd hd' (r.toFinset_eq_image hfactor s)

include hlevel

/-- The error matrices are the same if no value is rescaled. -/
theorem matrices_eq (hs : s ∈ Source.all d.factorCount) (hscale : r.scale = 1) :
    (d'.resultOf settings' s).matrices = (d.resultOf settings s).matrices := by
  have hs' := r.toFinset_eq_image hfactor s
  have hkind := r.kindOf_eq_self hd hd' hfactor s
  have hcarries := r.carries_monomial hd hd' (withinPart_subset d s) hlevel hfactor
  have hcarries : r.Carries (Mat.monomial 1 id) (fun _ => if d.withinPart s = ∅ then r.shift else 0)
      (d.scoreMatrix (d.withinPart s)) (d'.scoreMatrix (d'.withinPart s)) := by
    rw [r.withinPart_eq_self hfactor, ← hscale]
    exact hcarries
  cases h : d.kindOf s with
  | between => rw [matrices_between settings h, matrices_between settings' (hkind.trans h)]
  | within =>
    have hne := hd.withinPart_ne_empty (by rw [h]; exact nofun)
    rw [matrices_within settings h, matrices_within settings' (hkind.trans h),
      (r.congruent_withinMatrices hd hd' hs' hcarries hne fun j _ => if_neg hne).eq_of_monomial]
  | mixed =>
    have hne := hd.withinPart_ne_empty (by rw [h]; exact nofun)
    rw [matrices_mixed settings h, matrices_mixed settings' (hkind.trans h),
      (r.congruent_mixedMatrices hd hd' hs' hcarries hne hs h).eq_of_monomial]

theorem shape_effect_eq : (d'.resultOf settings' s).effect.values.shape =
    (d.resultOf settings s).effect.values.shape := by
  have hcarries := r.carries_monomial hd hd' (withinPart_subset d s) hlevel hfactor
  rw [hd.shape_effect settings, hd'.shape_effect settings', r.flags_between_eq hfactor,
    r.withinPart_eq_self hfactor, hcarries.cols_eq]

/-- A source within subjects has one effect for all cells, and it is rescaled. -/
theorem get_effect_eq_of_within (hkind : d.kindOf s = .within) {x y : List ℕ} {j : ℕ}
    (hx : x ∈ positions (keptShape (d.flags d.betweenFactors s)))
    (hy : y ∈ positions (keptShape (d'.flags d'.betweenFactors s)))
    (hj : j < (d.scoreMatrix (d.withinPart s)).cols) :
    (d'.resultOf settings' s).effect.values.get (y ++ [j]) =
      r.scale * (d.resultOf settings s).effect.values.get (x ++ [j]) := by
  have hcarries := r.carries_monomial hd hd' (withinPart_subset d s) hlevel hfactor
  have hne := hd.withinPart_ne_empty (by rw [hkind]; exact nofun)
  have hself := r.withinPart_eq_self hfactor s
  rw [hd.get_effect_within settings hkind hx hj,
    hd'.get_effect_within settings' ((r.kindOf_eq_self hd hd' hfactor s).trans hkind) hy
      (by rw [hself]; exact hj.trans_eq hcarries.cols_eq.symm),
    hself, hcarries.getD_grandMeans hd hj, if_neg hne, add_zero,
    Mat.sum_monomial hj fun k =>
      (d.statistics (d.scoreMatrix (d.withinPart s))).grandMeans.getD k 0]
  rfl

/-- The effect of the factors between subjects is the rescaled one at the cell of the new levels. -/
theorem get_effect_eq_of_between (hs : s ∈ Source.all d.factorCount) (hkind : d.kindOf s ≠ .within)
    {x y : List ℕ} {j : ℕ} (hx : x ∈ positions (keptShape (d.flags d.betweenFactors s)))
    (hy : y ∈ positions (keptShape (d'.flags d'.betweenFactors s)))
    (hj : j < (d.scoreMatrix (d.withinPart s)).cols)
    (hagree : Agree d'.betweenFactors (d.betweenPart s) (r.between.move x) y) :
    (d'.resultOf settings' s).effect.values.get (y ++ [j]) =
      r.scale * (d.resultOf settings s).effect.values.get (x ++ [j]) := by
  have hcarries := r.carries_monomial hd hd' (withinPart_subset d s) hlevel hfactor
  have hbetween := hd.betweenPart_ne_empty hs hkind
  have hsub := (hd.mem_all_iff.mp hs).1
  have hmem := hd.mem_cellPositions hx
  have heffect := hcarries.effectAt_move hd hd' hj (B := d.betweenPart s) hmem
  rw [r.image_eq_self hfactor, Mat.sum_monomial hj fun k =>
    d.effectAt (d.scoreMatrix (d.withinPart s)) k (d.betweenPart s) x] at heffect
  rw [hd.effect_eq_pureEffect settings hkind,
    hd'.effect_eq_pureEffect settings' (r.kindOf_eq_self hd hd' hfactor s ▸ hkind),
    r.withinPart_eq_self hfactor, hd.get_pureEffect_eq_effectAt hj hsub hbetween hx,
    hd'.get_pureEffect_eq_effectAt (hj.trans_eq hcarries.cols_eq.symm) (by rwa [r.factorCount_eq])
      (by rwa [r.betweenPart_eq_self hfactor]) hy,
    r.betweenPart_eq_self hfactor,
    Accepted.effectAt_eq_of_agree (r.between.move_mem hmem) (hd'.mem_cellPositions hy) hagree,
    heffect]
  rfl

/-- The effect is the rescaled one at the cell that shows the new levels. -/
theorem get_effect_eq (hs : s ∈ Source.all d.factorCount) {x y : List ℕ} {j : ℕ}
    (hx : x ∈ positions (keptShape (d.flags d.betweenFactors s)))
    (hy : y ∈ positions (keptShape (d.flags d.betweenFactors s)))
    (hj : j < (d.scoreMatrix (d.withinPart s)).cols)
    (hxy : ∀ f ∈ d.betweenPart s,
      levelAt d.betweenFactors y f = r.level f (levelAt d.betweenFactors x f)) :
    (d'.resultOf settings' s).effect.values.get (y ++ [j]) =
      r.scale * (d.resultOf settings s).effect.values.get (x ++ [j]) := by
  rw [← r.flags_between_eq hfactor] at hy
  by_cases hkind : d.kindOf s = .within
  · exact r.get_effect_eq_of_within hd hd' hfactor hlevel settings settings' hkind hx hy hj
  · exact r.get_effect_eq_of_between hd hd' hfactor hlevel settings settings' hs hkind hx hy hj
      (r.agree_move_of_levelAt hfactor hxy)

section InOrder

variable (hs : s ∈ Source.all d.factorCount)
  (hall : ∀ f ∈ s.toFinset, ∀ i < d.levelCount f, r.level f i = i)

include hs hall

omit hlevel

/-- Where all levels of the source keep their order, the effect is rescaled entry by entry. -/
theorem get_effect_eq_mul {index : List ℕ}
    (hindex : InBounds index (d.resultOf settings s).effect.values.shape) :
    (d'.resultOf settings' s).effect.values.get index =
      r.scale * (d.resultOf settings s).effect.values.get index := by
  rw [hd.shape_effect settings] at hindex
  obtain ⟨x, j, rfl, hx, hj⟩ := exists_eq_concat_of_inBounds hindex
  have hx := mem_positions.mpr hx
  refine r.get_effect_eq hd hd' hfactor (fun f hf => hall f (mem_inter.mp hf).1) settings
    settings' hs hx hx hj fun f hf => ?_
  exact (hall f (mem_inter.mp hf).1 _
    (levelAt_lt (hd.mem_cellPositions hx) (mem_betweenFactors_of_mem_betweenPart hf))).symm

theorem toList_effect_eq : (d'.resultOf settings' s).effect.values.toList =
    (d.resultOf settings s).effect.values.toList.map (r.scale * ·) := by
  rw [Grid.toList_eq, Grid.toList_eq, List.map_map, r.shape_effect_eq hd hd' hfactor
    (fun f hf => hall f (mem_inter.mp hf).1) settings settings']
  exact List.map_congr_left fun index hindex => r.get_effect_eq_mul hd hd' hfactor settings
    settings' hs hall (mem_multiIndices.mp hindex)

/-- Without rescaling it is the same. -/
theorem effect_eq (hscale : r.scale = 1) :
    (d'.resultOf settings' s).effect.values = (d.resultOf settings s).effect.values := by
  have hshape := r.shape_effect_eq hd hd' hfactor (fun f hf => hall f (mem_inter.mp hf).1) settings
    settings'
  refine Grid.ext_get hshape fun index hindex => ?_
  rw [hshape] at hindex
  rw [r.get_effect_eq_mul hd hd' hfactor settings settings' hs hall hindex, hscale, one_mul]

end InOrder

end Relabelling

end Design

end SplitPlot
