import Mathlib
import SplitPlot.Mat.Lemmas
import SplitPlot.Proofs.Decomposition.Contrasts
import SplitPlot.Proofs.Design.Parts
import SplitPlot.Proofs.Run

/-!
# The squares of contrast scores

For each set of factors within subjects there is a matrix with one row for each subject
(`Design.scoreMatrix`): the subject means for the empty set, and the contrast scores of the source
of the set otherwise.  The squared entries of a row are the energy of the scores of the subject on
the contrasts of the set (`sum_sq_scoreMatrix`).  So over all sets, each counted as often as its
means occur, they add up to the squares of all scores (`sum_joined_mul_sum_sq_scoreMatrix`).
-/

namespace SplitPlot

open Finset

namespace Design

/-- The score of a subject in a cell of the factors within subjects. -/
noncomputable def score (d : Design ℝ) (i : ℕ) (x : List ℕ) : ℝ := d.scores.get (i :: x)

variable {d : Design ℝ}

/-! ## Contrast scores as sums over cells -/

theorem getD_map_multiIndices {α : Type} (shape : List ℕ) (g : List ℕ → α) {c : ℕ}
    (hc : c < cellCount shape) (a : α) :
    ((multiIndices shape).map g).toArray.getD c a = g (unravel shape c) := by
  have hlen : c < ((multiIndices shape).map g).length := by
    rwa [List.length_map, length_multiIndices]
  rw [Array.getD_eq_getD_getElem?, List.getElem?_toArray, List.getElem?_eq_getElem hlen,
    Option.getD_some, List.getElem_map]
  simp only [multiIndices_eq, List.getElem_map, List.getElem_range]

theorem get_contrastWeights {levels : List ℕ} {k c : ℕ} (hk : k < cellCount levels)
    (hc : c < cellCount (contrastShape levels)) : (contrastWeights levels : Mat ℝ).get k c =
      contrastWeight levels (unravel (contrastShape levels) c) (unravel levels k) := by
  have hget : ∀ (shape : List ℕ) {k : ℕ}, k < cellCount shape →
      (multiIndices shape).toArray.getD k [] = unravel shape k := fun shape k hk => by
    have h := getD_map_multiIndices shape (fun x => x) hk []
    rwa [List.map_id'] at h
  rw [contrastWeights, Mat.get_ofFn _ (by simpa using hk) (by simpa using hc), hget _ hk, hget _ hc]

theorem cols_contrastWeights (levels : List ℕ) :
    (contrastWeights levels : Mat ℝ).cols = cellCount (contrastShape levels) := by
  rw [contrastWeights, Mat.cols_ofFn, List.size_toArray, length_multiIndices]

/-- The numbers of levels of the factors of a source. -/
theorem levels_withinAxes (s : Source) :
    ((d.withinAxes s).map fun a => d.withinShape.getD a 0) =
      droppedShape (d.flags d.withinFactors s) := d.map_getD_axesOf d.withinFactors s

theorem cols_contrastColumns (s : Source) : (d.contrastColumns s).cols =
    cellCount (contrastShape (droppedShape (d.flags d.withinFactors s))) := by
  rw [← levels_withinAxes, ← cols_contrastWeights]
  rfl

theorem get_contrastColumns_eq {s : Source} {levels : List ℕ}
    (hlevels : ((d.withinAxes s).map fun a => d.withinShape.getD a 0) = levels) {i c : ℕ}
    (hi : i < (d.reducedScores (d.withinAxes s)).rows) (hc : c < cellCount (contrastShape levels)) :
    (d.contrastColumns s).get i c =
      (d.reducedScores (d.withinAxes s) * contrastWeights levels).get i c /
        contrastNorm levels (unravel (contrastShape levels) c) := by
  have hcolumns : d.contrastColumns s =
      .ofFn (d.reducedScores (d.withinAxes s)).rows (contrastWeights levels : Mat ℝ).cols
        fun i c => (d.reducedScores (d.withinAxes s) * contrastWeights levels).get i c /
          ((multiIndices (contrastShape levels)).map (contrastNorm levels)).toArray.getD c 1 := by
    rw [contrastColumns, hlevels]
    rfl
  rw [hcolumns, Mat.get_ofFn _ hi ((cols_contrastWeights levels).symm ▸ hc),
    getD_map_multiIndices _ _ hc]

namespace Accepted

variable (hd : d.Accepted)

include hd

/-- The scores of a subject averaged over the factors outside a source. -/
theorem get_reducedScores (s : Source) {i k : ℕ} (hi : i < d.subjectCount)
    (hk : k < cellCount (droppedShape (d.flags d.withinFactors s))) :
    (d.reducedScores (d.withinAxes s)).get i k =
      lineDrop mean (d.flags d.withinFactors s) (d.score i)
        (unravel (droppedShape (d.flags d.withinFactors s)) k) := by
  have hshape := hd.shape_averageOutside s
  have htail : (d.averageOutside (d.withinAxes s)).shape.tail =
      droppedShape (d.flags d.withinFactors s) := by rw [hshape]; rfl
  have hextent : (d.averageOutside (d.withinAxes s)).extent 0 = d.subjectCount := by
    rw [Grid.extent, hshape]
    rfl
  have hin : InBounds (i :: unravel (droppedShape (d.flags d.withinFactors s)) k)
      (droppedShape ((d.subjectCount, true) :: d.flags d.withinFactors s)) :=
    ⟨hi, inBounds_unravel hk⟩
  show (Mat.ofFn ((d.averageOutside (d.withinAxes s)).extent 0)
    (cellCount (d.averageOutside (d.withinAxes s)).shape.tail) fun s' cell =>
      (d.averageOutside (d.withinAxes s)).get
        (s' :: unravel (d.averageOutside (d.withinAxes s)).shape.tail cell)).get i k = _
  rw [htail, hextent, Mat.get_ofFn _ hi hk, averageOutside_eq,
    Grid.get_reduceDrops mean (hd.shape_scores_flags s) hin]
  rfl

/-- A contrast score is the weighted sum over the cells by the norm of the weights. -/
theorem get_contrastColumns (s : Source) {i c : ℕ} (hi : i < d.subjectCount)
    (hc : c < cellCount (contrastShape (droppedShape (d.flags d.withinFactors s)))) :
    (d.contrastColumns s).get i c =
      (∑ x ∈ positions (droppedShape (d.flags d.withinFactors s)),
        lineDrop mean (d.flags d.withinFactors s) (d.score i) x *
          contrastWeight (droppedShape (d.flags d.withinFactors s))
            (unravel (contrastShape (droppedShape (d.flags d.withinFactors s))) c) x) /
        contrastNorm (droppedShape (d.flags d.withinFactors s))
          (unravel (contrastShape (droppedShape (d.flags d.withinFactors s))) c) := by
  have hrows : (d.reducedScores (d.withinAxes s)).rows = d.subjectCount :=
    hd.rows_contrastColumns s
  have hcols : (d.reducedScores (d.withinAxes s)).cols =
      cellCount (droppedShape (d.flags d.withinFactors s)) := by
    show cellCount (d.averageOutside (d.withinAxes s)).shape.tail = _
    rw [hd.shape_averageOutside]
    rfl
  have hsum : (d.reducedScores (d.withinAxes s) *
      contrastWeights (droppedShape (d.flags d.withinFactors s))).get i c =
        ∑ x ∈ positions (droppedShape (d.flags d.withinFactors s)),
          lineDrop mean (d.flags d.withinFactors s) (d.score i) x *
            contrastWeight (droppedShape (d.flags d.withinFactors s))
              (unravel (contrastShape (droppedShape (d.flags d.withinFactors s))) c) x := by
    rw [Mat.get_mul (hrows.symm ▸ hi) ((cols_contrastWeights _).symm ▸ hc), hcols, total_eq_sum,
      sum_map_range, ← sum_range_unravel]
    refine sum_congr rfl fun k hk => ?_
    rw [hd.get_reducedScores s hi (mem_range.mp hk), get_contrastWeights (mem_range.mp hk) hc]
  rw [get_contrastColumns_eq (levels_withinAxes s) (hrows.symm ▸ hi) hc, hsum]

/-- The squared contrast scores of a subject. -/
theorem sum_sq_contrastColumns (s : Source) {i : ℕ} (hi : i < d.subjectCount) :
    ∑ c ∈ range (d.contrastColumns s).cols, (d.contrastColumns s).get i c ^ 2 =
      contrastEnergy (droppedShape (d.flags d.withinFactors s))
        (lineDrop mean (d.flags d.withinFactors s) (d.score i)) := by
  rw [cols_contrastColumns, contrastEnergy, ← sum_range_unravel]
  refine sum_congr rfl fun c hc => ?_
  rw [hd.get_contrastColumns s hi (mem_range.mp hc), div_pow]
  refine congrArg (_ / ·) (Real.sq_sqrt ?_)
  exact Int.cast_nonneg (squaredNorm_nonneg _ _)

/-- The contrast score of a single factor with two levels is the difference. -/
theorem get_contrastColumns_two {s : Source}
    (hflags : d.flags d.withinFactors s = [(2, true)]) {i : ℕ} (hi : i < d.subjectCount) :
    (d.contrastColumns s).get i 0 = (d.score i [1] - d.score i [0]) / √2 := by
  have h := hd.get_contrastColumns s (i := i) (c := 0) hi (by rw [hflags]; decide)
  have hpositions : ∀ g : List ℕ → ℝ, ∑ x ∈ positions [2], g x = g [0] + g [1] := fun g => by
    rw [← sum_map_multiIndices]
    show g [0] + (g [1] + 0) = _
    rw [add_zero]
  rw [hflags] at h
  change _ = (∑ x ∈ positions [2], d.score i x * ((contrastWeight [2] [0] x : ℤ) : ℝ)) /
    √((2 : ℤ) : ℝ) at h
  rw [h, hpositions]
  show (d.score i [0] * ((-1 : ℤ) : ℝ) + d.score i [1] * ((1 : ℤ) : ℝ)) / _ = _
  push_cast
  ring

/-- The contrast scores of a single factor with three levels are the linear and the quadratic one.
-/
theorem get_contrastColumns_three {s : Source}
    (hflags : d.flags d.withinFactors s = [(3, true)]) {i : ℕ} (hi : i < d.subjectCount) :
    (d.contrastColumns s).get i 0 = (d.score i [2] - d.score i [0]) / √2 ∧
      (d.contrastColumns s).get i 1 =
        (d.score i [0] - 2 * d.score i [1] + d.score i [2]) / √6 := by
  have hcolumn := fun c hc => hd.get_contrastColumns s (i := i) (c := c) hi hc
  have hpositions : ∀ g : List ℕ → ℝ, ∑ x ∈ positions [3], g x = g [0] + g [1] + g [2] := by
    intro g
    rw [← sum_map_multiIndices]
    show g [0] + (g [1] + (g [2] + 0)) = _
    rw [add_zero, add_assoc]
  simp only [hflags] at hcolumn
  constructor
  · have h := hcolumn 0 (by decide)
    change _ = (∑ x ∈ positions [3], d.score i x * ((contrastWeight [3] [0] x : ℤ) : ℝ)) /
      √((2 : ℤ) : ℝ) at h
    rw [h, hpositions]
    show (d.score i [0] * ((-1 : ℤ) : ℝ) + d.score i [1] * ((0 : ℤ) : ℝ) +
      d.score i [2] * ((1 : ℤ) : ℝ)) / _ = _
    push_cast
    ring
  · have h := hcolumn 1 (by decide)
    change _ = (∑ x ∈ positions [3], d.score i x * ((contrastWeight [3] [1] x : ℤ) : ℝ)) /
      √((6 : ℤ) : ℝ) at h
    rw [h, hpositions]
    show (d.score i [0] * ((1 : ℤ) : ℝ) + d.score i [1] * ((-2 : ℤ) : ℝ) +
      d.score i [2] * ((1 : ℤ) : ℝ)) / _ = _
    push_cast
    ring

end Accepted

/-! ## One matrix for each set of factors within subjects -/

/-- The scores on which the sources with a given set of factors within subjects are analysed. -/
noncomputable def scoreMatrix (d : Design ℝ) (T : Finset ℕ) : Mat ℝ :=
  if T = ∅ then subjectMeans d.scores else d.contrastColumns (.span T.toList)

theorem scoreMatrix_empty : d.scoreMatrix ∅ = subjectMeans d.scores := if_pos rfl

theorem cols_scoreMatrix_empty : (d.scoreMatrix ∅).cols = 1 := by
  rw [scoreMatrix_empty]
  rfl

/-- The mean over all cells. -/
theorem lineDrop_flagged_empty {extent : ℕ → ℕ} : ∀ (factors : List ℕ) (g : List ℕ → ℝ),
    lineDrop mean (flagged extent factors ∅) g [] =
      (∑ x ∈ positions (factors.map extent), g x) / cellCount (factors.map extent)
  | [], g => by simp [lineDrop]
  | f :: factors, g => by
    rw [flagged_cons_of_notMem extent (Finset.notMem_empty f), lineDrop, mean_map_range,
      ← map_average (isLinearMap_lineDrop (flagged extent factors ∅) []),
      lineDrop_flagged_empty factors, List.map_cons, sum_positions_cons, cellCount_cons, sum_comm]
    simp only [average]
    rw [← sum_div, div_div, Nat.cast_mul]

theorem droppedShape_flagged_empty (extent : ℕ → ℕ) (factors : List ℕ) :
    droppedShape (flagged extent factors ∅) = [] := by
  rw [droppedShape, List.map_eq_nil_iff, List.filter_eq_nil_iff]
  intro a ha
  obtain ⟨f, -, rfl⟩ := List.mem_map.mp ha
  simp

/-- The mean of a subject over all cells of the factors within subjects. -/
theorem get_subjectMeans {i : ℕ} (hi : i < d.scores.extent 0) :
    (subjectMeans d.scores).get i 0 =
      (∑ x ∈ positions d.scores.shape.tail, d.score i x) / cellCount d.scores.shape.tail := by
  rw [subjectMeans, Mat.get_ofFn _ hi Nat.one_pos, mean_eq, sum_map_multiIndices, List.length_map,
    length_multiIndices]
  rfl

namespace Accepted

variable (hd : d.Accepted)

include hd

theorem toFinset_span_toList {T : Finset ℕ} (hT : T ⊆ d.withinFactors.toFinset) :
    (Source.span T.toList).toFinset = T := by
  have hlt : ∀ f ∈ T.toList, f < 31 := fun f hf =>
    (hd.lt_of_mem_withinFactors (List.mem_toFinset.mp (hT (mem_toList.mp hf)))).trans (by decide)
  rw [Source.toFinset_span hlt, toList_toFinset]

/-- The contrast scores of a source depend on its factors within subjects only. -/
theorem scoreMatrix_withinPart {s : Source} (hs : d.withinPart s ≠ ∅) :
    d.scoreMatrix (d.withinPart s) = d.contrastColumns (s.intersection d.withinMask) := by
  have heq : Source.span (d.withinPart s).toList = s.intersection d.withinMask := by
    have hsub : d.withinPart s ⊆ d.withinFactors.toFinset := inter_subset_right
    refine Source.toFinset_injective ?_
    rw [hd.toFinset_span_toList hsub, Source.toFinset_intersection, hd.toFinset_withinMask,
      withinPart]
  rw [scoreMatrix, if_neg hs, heq]

theorem rows_scoreMatrix (T : Finset ℕ) : (d.scoreMatrix T).rows = d.subjectCount := by
  rw [scoreMatrix]
  split
  · exact hd.rows_subjectMeans
  · exact hd.rows_contrastColumns _

theorem get_subjectMeans_accepted {i : ℕ} (hi : i < d.subjectCount) :
    (subjectMeans d.scores).get i 0 =
      (∑ x ∈ positions d.withinShape, d.score i x) / d.withinCellCount := by
  have htail : d.scores.shape.tail = d.withinShape := by
    rw [hd.shape_scores, List.tail_cons]
  rw [get_subjectMeans (hd.extent_scores_zero.symm ▸ hi), htail]
  rfl

/-- The squared scores of a subject on a set of factors within subjects. -/
theorem sum_sq_scoreMatrix {T : Finset ℕ} (hT : T ⊆ d.withinFactors.toFinset) {i : ℕ}
    (hi : i < d.subjectCount) :
    ∑ j ∈ range (d.scoreMatrix T).cols, (d.scoreMatrix T).get i j ^ 2 =
      contrastEnergy (droppedShape (flagged d.levelCount d.withinFactors T))
        (lineDrop mean (flagged d.levelCount d.withinFactors T) (d.score i)) := by
  by_cases hempty : T = ∅
  · subst hempty
    rw [cols_scoreMatrix_empty, sum_range_one, scoreMatrix_empty, hd.get_subjectMeans_accepted hi,
      droppedShape_flagged_empty, contrastEnergy_nil, lineDrop_flagged_empty]
    rfl
  · have hflags : d.flags d.withinFactors (.span T.toList) =
        flagged d.levelCount d.withinFactors T := by
      rw [flags_eq_flagged d.toCoding fun f hf => hd.lt_of_mem_withinFactors hf,
        hd.toFinset_span_toList hT]
    rw [scoreMatrix, if_neg hempty, hd.sum_sq_contrastColumns _ hi, hflags]

/-- Over all sets of factors within subjects the squared scores of a subject add up to the squares
of what was observed of it. -/
theorem sum_joined_mul_sum_sq_row {i : ℕ} (hi : i < d.subjectCount) :
    ∑ T ∈ d.withinFactors.toFinset.powerset, (joined (flagged d.levelCount d.withinFactors T) : ℝ) *
      ∑ j ∈ range (d.scoreMatrix T).cols, (d.scoreMatrix T).get i j ^ 2 =
      ∑ x ∈ positions d.withinShape, d.score i x ^ 2 := by
  have hsets : ∀ T ∈ d.withinFactors.toFinset.powerset,
      (joined (flagged d.levelCount d.withinFactors T) : ℝ) *
        ∑ j ∈ range (d.scoreMatrix T).cols, (d.scoreMatrix T).get i j ^ 2 =
      (joined (flagged d.levelCount d.withinFactors T) : ℝ) *
        contrastEnergy (droppedShape (flagged d.levelCount d.withinFactors T))
          (lineDrop mean (flagged d.levelCount d.withinFactors T) (d.score i)) := fun T hT => by
    rw [hd.sum_sq_scoreMatrix (mem_powerset.mp hT) hi]
  rw [sum_congr rfl hsets]
  exact sum_joined_mul_contrastEnergy (nodup_withinFactors d.toCoding)
    (fun f hf => hd.levelCount_within hf) (d.score i)

/-- Over all subjects they add up to the squares of the observed scores. -/
theorem sum_joined_mul_sum_sq_scoreMatrix :
    ∑ T ∈ d.withinFactors.toFinset.powerset, (joined (flagged d.levelCount d.withinFactors T) : ℝ) *
      ∑ j ∈ range (d.scoreMatrix T).cols, ∑ i ∈ range d.subjectCount,
        (d.scoreMatrix T).get i j ^ 2 =
      ∑ i ∈ range d.subjectCount, ∑ x ∈ positions d.withinShape, d.score i x ^ 2 := by
  rw [← sum_congr rfl fun i hi => hd.sum_joined_mul_sum_sq_row (mem_range.mp hi), sum_comm]
  refine sum_congr rfl fun T _ => ?_
  rw [← mul_sum, sum_comm]

end Accepted

end Design

end SplitPlot
