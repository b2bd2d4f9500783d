import Mathlib
import SplitPlot.Proofs.Decomposition.ZeroSums
import SplitPlot.Proofs.Relabelling.Contrasts
import SplitPlot.Proofs.Relabelling.Models

/-!
# The contrast scores of relabelled designs

Every score, the mean of a subject as well as a contrast score, is a sum over the cells within
subjects, weighted with a combination of contrasts (`Accepted.get_scoreMatrix`); for the mean it is
the constant one.  So the scores of relabelled designs are carried along with the combinations
(`carries_scoreMatrix`): the new combinations are linear in the old ones, the scores are multiplied
by the scale, and the shift is seen by the means only.

* Whatever happens to the levels within subjects, the coefficients are those of an orthogonal matrix
  (`change_mul_transpose`).
* Where the levels of the factors of a set keep their order, they are those of a permutation of the
  columns (`exists_carries_monomial`), and of none at all if the factors stay in place
  (`carries_monomial`).
-/

namespace SplitPlot

open Finset

namespace Design

variable {d : Design ℝ}

/-! ## Scores as sums over all cells -/

/-- The combination of contrasts with a given number, as one contrast for each factor of a set. -/
noncomputable def contrastIndex (d : Design ℝ) (T : Finset ℕ) (c : ℕ) : List ℕ :=
  unravel (contrastShape (droppedShape (flagged d.levelCount d.withinFactors T))) c

/-- The weight of a cell within subjects in a combination of contrasts of a set of factors. -/
noncomputable def cellContrast (d : Design ℝ) (T : Finset ℕ) (c : ℕ) (z : List ℕ) : ℝ :=
  contrastAt (flagged d.levelCount d.withinFactors T) (d.contrastIndex T c) z

theorem contrastIndex_mem {T : Finset ℕ} {c : ℕ}
    (hc : c < cellCount (contrastShape (droppedShape (flagged d.levelCount d.withinFactors T)))) :
    d.contrastIndex T c ∈ combinations (flagged d.levelCount d.withinFactors T) :=
  mem_positions.mpr (inBounds_unravel hc)

/-- Different numbers belong to different combinations. -/
theorem contrastIndex_inj {T : Finset ℕ} {b c : ℕ}
    (hb : b < cellCount (contrastShape (droppedShape (flagged d.levelCount d.withinFactors T))))
    (hc : c < cellCount (contrastShape (droppedShape (flagged d.levelCount d.withinFactors T)))) :
    d.contrastIndex T b = d.contrastIndex T c ↔ b = c :=
  ⟨eq_of_unravel_eq hb hc, congrArg _⟩

namespace Accepted

variable (hd : d.Accepted) {T : Finset ℕ} (hT : T ⊆ d.withinFactors.toFinset)

include hd hT

/-- The contrast scores of a set of factors, as the source of the set has them. -/
theorem flags_span : d.flags d.withinFactors (.span T.toList) =
    flagged d.levelCount d.withinFactors T := by
  rw [flags_eq_flagged d.toCoding fun f hf => hd.lt_of_mem_withinFactors hf,
    hd.toFinset_span_toList hT]

theorem cols_scoreMatrix : (d.scoreMatrix T).cols =
    cellCount (contrastShape (droppedShape (flagged d.levelCount d.withinFactors T))) := by
  by_cases hempty : T = ∅
  · subst hempty
    rw [cols_scoreMatrix_empty, droppedShape_flagged_empty]
    rfl
  · rw [scoreMatrix, if_neg hempty, cols_contrastColumns, hd.flags_span hT]

/-- A score is the sum over the cells, weighted with the combination of contrasts. -/
theorem get_scoreMatrix {i c : ℕ} (hi : i < d.subjectCount) (hc : c < (d.scoreMatrix T).cols) :
    (d.scoreMatrix T).get i c = (∑ z ∈ positions (d.withinFactors.map d.levelCount),
      d.score i z * d.cellContrast T c z) /
        joined (flagged d.levelCount d.withinFactors T) := by
  have hc' := hc.trans_eq (hd.cols_scoreMatrix hT)
  by_cases hempty : T = ∅
  · subst hempty
    obtain rfl := Nat.lt_one_iff.mp (hc.trans_eq cols_scoreMatrix_empty)
    rw [scoreMatrix_empty, hd.get_subjectMeans_accepted hi, joined_flagged_empty]
    refine congrArg (· / _) (sum_congr rfl fun z hz => ?_)
    rw [cellContrast, contrastAt_flagged_empty (nodup_withinFactors d.toCoding)
      (contrastIndex_mem hc') hz, mul_one]
  · have hsum := sum_droppedShape (flagged d.levelCount d.withinFactors T) (d.score i) fun x =>
      contrastWeight (droppedShape (flagged d.levelCount d.withinFactors T))
          (d.contrastIndex T c) x /
        contrastNorm (droppedShape (flagged d.levelCount d.withinFactors T)) (d.contrastIndex T c)
    rw [map_fst_flagged] at hsum
    have hflags := hd.flags_span hT
    rw [← hflags] at hc'
    have hget := hd.get_contrastColumns (.span T.toList) hi hc'
    rw [hflags, sum_div] at hget
    rw [scoreMatrix, if_neg hempty, hget]
    refine (sum_congr rfl fun x _ => ?_).trans hsum
    exact mul_div_assoc _ _ _

/-- A combination of contrasts adds up to zero over the cells, unless it is the constant one. -/
theorem sum_cellContrast {c : ℕ} (hc : c < (d.scoreMatrix T).cols) :
    (∑ z ∈ positions (d.withinFactors.map d.levelCount), d.cellContrast T c z) /
      joined (flagged d.levelCount d.withinFactors T) = if T = ∅ then 1 else 0 := by
  have hmem := contrastIndex_mem (hc.trans_eq (hd.cols_scoreMatrix hT))
  split_ifs with hempty
  · subst hempty
    have hone : ∀ z ∈ positions (d.withinFactors.map d.levelCount), d.cellContrast ∅ c z = 1 :=
      fun z hz => contrastAt_flagged_empty (nodup_withinFactors d.toCoding) hmem hz
    have hpos : (d.withinCellCount : ℝ) ≠ 0 := Nat.cast_ne_zero.mpr hd.withinCellCount_pos.ne'
    rw [sum_congr rfl hone, sum_const, card_positions, nsmul_eq_mul, mul_one, joined_flagged_empty]
    exact div_self hpos
  · obtain ⟨f, hf⟩ := nonempty_iff_ne_empty.mpr hempty
    have hflag : (d.levelCount f, true) ∈ flagged d.levelCount d.withinFactors T := by
      refine List.mem_map.mpr ⟨f, List.mem_toFinset.mp (hT hf), ?_⟩
      rw [decide_eq_true hf]
    have hzero :=
      sum_contrastAt (bounds_flagged (fun g hg => hd.levelCount_within hg) T) hmem ⟨_, hflag⟩
    rw [map_fst_flagged] at hzero
    exact div_eq_zero_iff.mpr (.inl hzero)

end Accepted

namespace Relabelling

variable {d' : Design ℝ} (r : Relabelling d d') (hd : d.Accepted) (hd' : d'.Accepted)
  {T : Finset ℕ} (hT : T ⊆ d.withinFactors.toFinset)

/-- The coefficient of a column of scores in a column of the relabelled design. -/
noncomputable def change (T : Finset ℕ) (j k : ℕ) : ℝ :=
  r.within.change T (d'.contrastIndex (T.image r.factor) j) (d.contrastIndex T k)

include hT in
theorem image_subset_withinFactors : T.image r.factor ⊆ d'.withinFactors.toFinset :=
  r.within.image_subset hT

include hT hd hd'

/-- The number of scores of a subject stays. -/
theorem cols_scoreMatrix_move :
    (d'.scoreMatrix (T.image r.factor)).cols = (d.scoreMatrix T).cols := by
  rw [hd.cols_scoreMatrix hT, hd'.cols_scoreMatrix (r.image_subset_withinFactors hT),
    droppedShape_flagged, droppedShape_flagged, contrastShape, contrastShape, List.map_map,
    List.map_map]
  exact (r.within.kept T).cellCount_move

/-- A new combination of contrasts is linear in the old ones. -/
theorem cellContrast_move {j : ℕ} (hj : j < (d.scoreMatrix T).cols) {z : List ℕ}
    (hz : z ∈ positions (d.withinFactors.map d.levelCount)) :
    d'.cellContrast (T.image r.factor) j (r.within.move z) =
      ∑ k ∈ range (d.scoreMatrix T).cols, r.change T j k * d.cellContrast T k z := by
  have hj' := (hd'.cols_scoreMatrix (r.image_subset_withinFactors hT)) ▸
    hj.trans_eq (r.cols_scoreMatrix_move hd hd' hT).symm
  rw [cellContrast]
  refine (r.within.contrastAt_move_eq_sum (fun f hf => hd.levelCount_within hf) hT
    (contrastIndex_mem hj') hz).trans ?_
  rw [hd.cols_scoreMatrix hT, combinations, ← sum_range_unravel]
  rfl

/-- Over the moved cells too, a combination adds up to zero unless it is the constant one. -/
theorem sum_cellContrast_move {j : ℕ} (hj : j < (d.scoreMatrix T).cols) :
    (∑ z ∈ positions (d.withinFactors.map d.levelCount),
      d'.cellContrast (T.image r.factor) j (r.within.move z)) /
        joined (flagged d.levelCount d.withinFactors T) = if T = ∅ then 1 else 0 := by
  have hjoined : joined (flagged d'.levelCount d'.withinFactors (T.image r.factor)) =
      joined (flagged d.levelCount d.withinFactors T) := r.within.joined_move T
  have hsum := hd'.sum_cellContrast (r.image_subset_withinFactors hT)
    (hj.trans_eq (r.cols_scoreMatrix_move hd hd' hT).symm)
  rw [r.within.sum_move, hjoined, if_congr image_eq_empty rfl rfl] at hsum
  exact hsum

/-- What a cell contributes to a score: the old contributions to all scores, and a part that does
not depend on the value in the cell. -/
theorem score_mul_cellContrast_move {i j : ℕ} (hi : i < d.subjectCount)
    (hj : j < (d.scoreMatrix T).cols) {z : List ℕ}
    (hz : z ∈ positions (d.withinFactors.map d.levelCount)) :
    d'.score (r.subject i) (r.within.move z) *
        d'.cellContrast (T.image r.factor) j (r.within.move z) =
      ∑ k ∈ range (d.scoreMatrix T).cols,
        r.scale * r.change T j k * (d.score i z * d.cellContrast T k z) +
          r.shift * d'.cellContrast (T.image r.factor) j (r.within.move z) := by
  rw [r.score_move hd hd' hi hz, add_mul]
  refine congrArg (· + _) ?_
  rw [r.cellContrast_move hd hd' hT hj hz, mul_sum]
  exact sum_congr rfl fun k _ => by ring

/-- The scores of a relabelled design are carried along. -/
theorem carries_scoreMatrix : r.Carries (fun j k => r.scale * r.change T j k)
    (fun _ => if T = ∅ then r.shift else 0) (d.scoreMatrix T)
      (d'.scoreMatrix (T.image r.factor)) where
  rows_eq := hd.rows_scoreMatrix T
  rows_eq' := hd'.rows_scoreMatrix _
  cols_eq := r.cols_scoreMatrix_move hd hd' hT
  get_eq i hi j hj := by
    have hj' := hj.trans_eq (r.cols_scoreMatrix_move hd hd' hT).symm
    have hi' : r.subject i < d'.subjectCount := (r.subject_lt i hi).trans_eq r.subjectCount_eq.symm
    have hjoined : joined (flagged d'.levelCount d'.withinFactors (T.image r.factor)) =
        joined (flagged d.levelCount d.withinFactors T) := r.within.joined_move T
    have hcells := sum_congr rfl fun z hz =>
      r.score_mul_cellContrast_move hd hd' hT hi hj (z := z) hz
    rw [hd'.get_scoreMatrix (r.image_subset_withinFactors hT) hi' hj', hjoined]
    refine (congrArg (· / _) ((r.within.sum_move _).trans hcells)).trans ?_
    rw [sum_add_distrib, add_div, ← mul_sum, mul_div_assoc r.shift,
      r.sum_cellContrast_move hd hd' hT hj, mul_ite, mul_one, mul_zero, sum_comm, sum_div]
    refine congrArg (· + _) (sum_congr rfl fun k hk => ?_)
    rw [hd.get_scoreMatrix hT hi (mem_range.mp hk), ← mul_sum, mul_div_assoc]

/-! ## The coefficients -/

/-- The coefficients form an orthogonal matrix. -/
theorem change_mul_transpose {n : ℕ} (hn : n = (d.scoreMatrix T).cols) :
    Mat.change n (r.change T) * (Mat.change n (r.change T)).transpose = 1 := by
  have hlt : ∀ i : Fin n, (i : ℕ) < cellCount (contrastShape (droppedShape
      (flagged d'.levelCount d'.withinFactors (T.image r.factor)))) := fun i => by
    rw [← hd'.cols_scoreMatrix (r.image_subset_withinFactors hT), r.cols_scoreMatrix_move hd hd' hT]
    exact i.isLt.trans_eq hn
  have hsum : ∀ i j : Fin n, ∑ k : Fin n, r.change T i k * r.change T j k =
      if d'.contrastIndex (T.image r.factor) i = d'.contrastIndex (T.image r.factor) j then 1
      else 0 := by
    intro i j
    have horth := r.within.sum_change_mul_change (fun f hf => hd.levelCount_within hf) hT
      (contrastIndex_mem (hlt i)) (contrastIndex_mem (hlt j))
    rw [combinations, ← sum_range_unravel, ← hd.cols_scoreMatrix hT, ← hn,
      ← Fin.sum_univ_eq_sum_range] at horth
    exact horth
  ext i j
  rw [Matrix.mul_apply, Matrix.one_apply]
  exact (hsum i j).trans
    (if_congr ((contrastIndex_inj (hlt i) (hlt j)).trans Fin.ext_iff.symm) rfl rfl)

section InOrder

variable (hlevel : ∀ f ∈ T, ∀ i < d.levelCount f, r.level f i = i)

include hlevel

omit hd' in
/-- Where the levels keep their order, a new combination has the coefficient one in the old
combination that it comes from, and zero in all others. -/
theorem change_eq_ite {j k l : ℕ} (hk : k < (d.scoreMatrix T).cols)
    (hl : l < (d.scoreMatrix T).cols)
    (hj : (r.within.kept T).move (d.contrastIndex T l) = d'.contrastIndex (T.image r.factor) j) :
    r.change T j k = if k = l then 1 else 0 := by
  have hk' := hk.trans_eq (hd.cols_scoreMatrix hT)
  have hl' := hl.trans_eq (hd.cols_scoreMatrix hT)
  have hkept := r.within.change_kept (S := T) (fun f _ hf => hlevel f hf)
    (fun f hf => hd.levelCount_within hf) (contrastIndex_mem hl') (contrastIndex_mem hk')
  rw [change, ← hj]
  exact hkept.trans (if_congr ((contrastIndex_inj hl' hk').trans eq_comm) rfl rfl)

/-- So the columns are the old ones, multiplied by the scale and in another order. -/
theorem exists_carries_monomial : ∃ τ : ℕ → ℕ,
    (∀ j < (d.scoreMatrix T).cols, τ j < (d.scoreMatrix T).cols) ∧
    (∀ i < (d.scoreMatrix T).cols, ∀ j < (d.scoreMatrix T).cols, τ i = τ j → i = j) ∧
      r.Carries (Mat.monomial r.scale τ) (fun _ => if T = ∅ then r.shift else 0) (d.scoreMatrix T)
        (d'.scoreMatrix (T.image r.factor)) := by
  have hcols := hd.cols_scoreMatrix hT
  have hcols' := (r.cols_scoreMatrix_move hd hd' hT).symm.trans
    (hd'.cols_scoreMatrix (r.image_subset_withinFactors hT))
  have hcomes : ∀ j : ℕ, ∃ l, j < (d.scoreMatrix T).cols → l < (d.scoreMatrix T).cols ∧
      (r.within.kept T).move (d.contrastIndex T l) = d'.contrastIndex (T.image r.factor) j := by
    intro j
    by_cases hj : j < (d.scoreMatrix T).cols
    · have hmem := contrastIndex_mem (hj.trans_eq hcols')
      rw [combinations_flagged] at hmem
      obtain ⟨b, hb, hmove⟩ := (r.within.kept T).exists_move_eq hmem
      rw [← combinations_flagged] at hb
      have hb := mem_positions.mp hb
      refine ⟨_, fun _ => ⟨(flatIndex_lt hb).trans_eq hcols.symm, ?_⟩⟩
      rw [contrastIndex, unravel_flatIndex hb]
      exact hmove
    · exact ⟨0, fun h => absurd h hj⟩
  choose τ hτ using hcomes
  refine ⟨τ, fun j hj => (hτ j hj).1, fun i hi j hj heq => ?_,
    (r.carries_scoreMatrix hd hd' hT).congr fun j hj k hk => ?_⟩
  · refine (contrastIndex_inj (hi.trans_eq hcols') (hj.trans_eq hcols')).mp ?_
    rw [← (hτ i hi).2, ← (hτ j hj).2, heq]
  · rw [r.change_eq_ite hd hT hlevel hk (hτ j hj).1 (hτ j hj).2, Mat.monomial, mul_ite, mul_one,
      mul_zero]

/-- Where the factors stay in place, the columns do too. -/
theorem carries_monomial (hfactor : r.factor = 1) :
    r.Carries (Mat.monomial r.scale id) (fun _ => if T = ∅ then r.shift else 0) (d.scoreMatrix T)
      (d'.scoreMatrix T) := by
  have hcols := hd.cols_scoreMatrix hT
  have hindex : ∀ j, d'.contrastIndex T j = d.contrastIndex T j := by
    intro j
    have hshape : droppedShape (flagged d'.levelCount d'.withinFactors T) =
        droppedShape (flagged d.levelCount d.withinFactors T) := by
      rw [droppedShape_flagged, droppedShape_flagged, r.withinFactors_eq hfactor]
      refine List.map_congr_left fun f hf => r.levelCount_eq_self hfactor ?_
      exact (Coding.mem_withinFactors.mp (List.mem_of_mem_filter hf)).1
    rw [contrastIndex, hshape, contrastIndex]
  have hcarries := r.carries_scoreMatrix hd hd' hT
  rw [r.image_eq_self hfactor] at hcarries
  refine hcarries.congr fun j hj k hk => ?_
  have hmem := contrastIndex_mem (hj.trans_eq hcols)
  rw [combinations_flagged] at hmem
  have hself : (r.within.kept T).move (d.contrastIndex T j) = d.contrastIndex T j := by
    refine (r.within.kept T).move_eq_self ?_ hfactor (fun _ _ _ _ => rfl) hmem
    have himage : T.image r.within.factor = T := r.image_eq_self hfactor T
    rw [himage, r.withinFactors_eq hfactor]
  rw [r.change_eq_ite hd hT hlevel hk hj (by rw [hself, r.image_eq_self hfactor, hindex]),
    Mat.monomial, mul_ite, mul_one, mul_zero]
  rfl

end InOrder

end Relabelling

end Design

end SplitPlot
