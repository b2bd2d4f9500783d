import Mathlib
import SplitPlot.Proofs.Decomposition.Basis
import SplitPlot.Proofs.Decomposition.Scores
import SplitPlot.Proofs.Partial.Designs

/-!
# Subject means and contrast scores that are defined

Two kinds of division make the scores of a source.  A mean over factors within subjects is divided
by numbers of levels, of which an accepted design has no zero.  A contrast score is divided by the
norm of the weights of its contrasts, which is not zero since each factor takes a contrast of its
table, and no contrast of the table has weights that are all zero (`contrastNorm_pos`).
-/

namespace SplitPlot

/-! ## Averaged scores -/

section Grids

variable {c : Comparison}

/-- Axes that are averaged out from the last to the first have an extent when their turn comes. -/
theorem Grid.foldl_meanDrop_map_of : ∀ {axes : List ℕ} {g : Grid ℝ}, axes.Pairwise (· > ·) →
    (∀ a ∈ axes, 0 < g.extent (a + 1)) →
      axes.foldl (fun g a => g.meanDrop (a + 1)) (g.map (Checked.of c)) =
        (axes.foldl (fun g a => g.meanDrop (a + 1)) g).map (Checked.of c)
  | [], _, _, _ => rfl
  | a :: axes, g, hsorted, hextent => by
    obtain ⟨hlast, hsorted⟩ := List.pairwise_cons.mp hsorted
    obtain ⟨ha, hextent⟩ := List.forall_mem_cons.mp hextent
    have hdrop :
        (g.map (Checked.of c)).meanDrop (a + 1) = (g.meanDrop (a + 1)).map (Checked.of c) :=
      Grid.reduceDrop_map_of (fun _ hl => Checked.mean_map_of hl) ha
    rw [List.foldl_cons, List.foldl_cons, hdrop]
    refine Grid.foldl_meanDrop_map_of hsorted fun b hb => ?_
    -- an axis in front of the dropped one keeps its place
    have hlt : b + 1 < a + 1 := Nat.succ_lt_succ (hlast b hb)
    have hkept := hextent b hb
    rw [Grid.extent, List.getD_eq_getElem?_getD] at hkept ⊢
    rwa [Grid.meanDrop, Grid.shape_reduceDrop, List.getElem?_eraseIdx_of_lt hlt]

theorem subjectMeans_map_of {scores : Grid ℝ} (h : 0 < cellCount scores.shape.tail) :
    subjectMeans (scores.map (Checked.of c)) = (subjectMeans scores).map (Checked.of c) := by
  rw [subjectMeans, subjectMeans, Mat.map_ofFn]
  refine congrArg (Mat.ofFn _ 1) (funext fun s => funext fun _ => ?_)
  have hvalues : (multiIndices (scores.map (Checked.of c)).shape.tail).map
      (fun index => (scores.map (Checked.of c)).get (s :: index)) =
        ((multiIndices scores.shape.tail).map fun index => scores.get (s :: index)).map
          (Checked.of c) := by
    rw [List.map_map]
    exact List.map_congr_left fun index _ => scores.get_map_of _
  rw [hvalues, Checked.mean_map_of]
  rw [Ne, List.map_eq_nil_iff, ← List.length_eq_zero_iff, length_multiIndices]
  exact h.ne'

end Grids

/-- The weights of contrasts are whole numbers. -/
theorem contrastWeights_eq_map (levels : List ℕ) (c : Comparison) :
    (contrastWeights levels : Mat (Checked c)) =
      (contrastWeights levels : Mat ℝ).map (Checked.of c) := by
  rw [contrastWeights, contrastWeights, Mat.map_ofFn]
  rfl

/-! ## The scores of an accepted design -/

namespace Design

variable {d : Design ℝ} (hd : d.Accepted)

include hd

/-- The factors of a source within subjects have contrasts in the table. -/
theorem Accepted.levels_withinAxes_bounds (s : Source) :
    ∀ n ∈ (d.withinAxes s).map fun a => d.withinShape.getD a 0, 0 < n ∧ n ≤ maxWithinLevels := by
  intro n hn
  rw [levels_withinAxes, droppedShape] at hn
  obtain ⟨_, haxis, rfl⟩ := List.mem_map.mp hn
  obtain ⟨f, hf, rfl⟩ := List.mem_map.mp (List.mem_filter.mp haxis).1
  exact hd.levelCount_within hf

/-- The cells that scores are reduced to have positions: the numbers of levels that a number of a
cell is divided by are not zero. -/
theorem Accepted.unflatten_eq_ok (s : Source) (cell : ℕ) :
    unflatten cell (d.averageOutside (d.withinAxes s)).shape.tail =
      .ok (unravel (d.averageOutside (d.withinAxes s)).shape.tail cell) := by
  rw [hd.shape_averageOutside, List.tail_cons, ← levels_withinAxes]
  refine if_neg fun hzero => ?_
  exact (hd.levels_withinAxes_bounds s 0 hzero).1.false

variable (c : Comparison)

theorem Accepted.subjectMeans_map_of : subjectMeans (d.map (Checked.of c)).scores =
    (subjectMeans d.scores).map (Checked.of c) := by
  refine SplitPlot.subjectMeans_map_of ?_
  rw [hd.shape_scores]
  exact hd.withinCellCount_pos

theorem Accepted.averageOutside_map_of (keep : List ℕ) :
    (d.map (Checked.of c)).averageOutside keep = (d.averageOutside keep).map (Checked.of c) := by
  refine Grid.foldl_meanDrop_map_of ?_ fun a ha => ?_
  · exact (List.pairwise_reverse.mpr List.pairwise_lt_range).filter _
  · have hlt : a < d.withinFactors.length :=
      List.mem_range.mp (List.mem_reverse.mp (List.mem_filter.mp ha).1)
    rw [Grid.extent, hd.shape_scores, List.getD_cons_succ, Coding.withinShape,
      List.getD_eq_getElem _ _ ((List.length_map _).symm ▸ hlt), List.getElem_map]
    exact (hd.levelCount_within (List.getElem_mem hlt)).1

theorem Accepted.reducedScores_map_of (keep : List ℕ) :
    (d.map (Checked.of c)).reducedScores keep = (d.reducedScores keep).map (Checked.of c) := by
  rw [reducedScores, reducedScores, Mat.map_ofFn]
  simp only [hd.averageOutside_map_of, Grid.shape_map, Grid.extent_map, Grid.get_map_of]

theorem Accepted.contrastColumns_map_of (s : Source) :
    (d.map (Checked.of c)).contrastColumns s = (d.contrastColumns s).map (Checked.of c) := by
  let levels := (d.withinAxes s).map fun a => d.withinShape.getD a 0
  let norms := (multiIndices (contrastShape levels)).map fun e => (contrastNorm levels e : ℝ)
  have hnorm : ∀ k, norms.toArray.getD k 1 ≠ 0 := by
    intro k
    rw [Array.getD_eq_getD_getElem?, List.getElem?_toArray]
    cases hget : norms[k]? with
    | none => exact one_ne_zero
    | some x =>
      obtain ⟨e, he, rfl⟩ := List.mem_map.mp (List.mem_of_getElem? hget)
      exact (contrastNorm_pos (hd.levels_withinAxes_bounds s) he).ne'
  have hnorms : ∀ k, ((multiIndices (contrastShape levels)).map
      fun e => (contrastNorm levels e : Checked c)).toArray.getD k 1 =
        Checked.of c (norms.toArray.getD k 1) := by
    intro k
    rw [Array.getD_eq_getD_getElem?, Array.getD_eq_getD_getElem?, List.getElem?_toArray,
      List.getElem?_toArray, List.getElem?_map, List.getElem?_map]
    cases (multiIndices (contrastShape levels))[k]? <;> rfl
  have hsums : (d.map (Checked.of c)).reducedScores (d.withinAxes s) * contrastWeights levels =
      (d.reducedScores (d.withinAxes s) * contrastWeights levels).map (Checked.of c) := by
    rw [hd.reducedScores_map_of, contrastWeights_eq_map, Mat.mul_map_of]
  rw [contrastColumns, contrastColumns, Mat.map_ofFn]
  show Mat.ofFn
    ((d.map (Checked.of c)).reducedScores (d.withinAxes s) * contrastWeights levels).rows
    ((d.map (Checked.of c)).reducedScores (d.withinAxes s) * contrastWeights levels).cols
    (fun i k => ((d.map (Checked.of c)).reducedScores (d.withinAxes s) *
      contrastWeights levels).get i k / _) = _
  rw [hsums]
  refine congrArg (Mat.ofFn _ _) (funext fun i => funext fun k => ?_)
  rw [Mat.get_map_of]
  exact (congrArg _ (hnorms k)).trans (Checked.of_div (hnorm k))

end Design

end SplitPlot
