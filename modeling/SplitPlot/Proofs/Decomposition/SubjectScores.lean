import Mathlib
import SplitPlot.Proofs.Decomposition.Closure
import SplitPlot.Proofs.Decomposition.Combinations

/-!
# The scores of one subject

The contrast scores of a subject, over all sources within subjects, say exactly how its scores
deviate from its mean: their squares, each counted as often as there are cells that were averaged,
add up to the squares of the deviations (`sum_sq_deviations_eq_sum_scores`).  So nothing of the
deviations is lost and nothing is counted twice, whatever the other subjects do and however many
there are in a cell.

The sources for which an analysis prepares scores are the non-empty sets of factors within subjects,
each of them once (`mem_map_toFinset_sourcesWithin`, `nodup_map_toFinset_sourcesWithin`).  The empty
set has a share too, and it is the mean of the subject that is taken away.
-/

namespace SplitPlot

open Finset

namespace Design

variable {d : Design ℝ}

/-! ## The sources within subjects -/

/-- A source has one set of factors, so a list of sources is one of sets. -/
theorem nodup_map_toFinset_sourcesWithin (hd : d.Accepted) :
    (d.sourcesWithin.map Source.toFinset).Nodup :=
  ((Source.nodup_all (hd.factorCount_le.trans (by decide : 16 ≤ 30))).filter _).map
    Source.toFinset_injective

namespace Accepted

variable (hd : d.Accepted)

include hd

theorem mem_sourcesWithin {s : Source} : s ∈ d.sourcesWithin ↔
    s.toFinset ≠ ∅ ∧ s.toFinset ⊆ d.withinFactors.toFinset := by
  rw [sourcesWithin, List.mem_filter, beq_iff_eq, hd.mem_all_iff, hd.kindOf_eq_within_iff,
    nonempty_iff_ne_empty]
  exact ⟨And.right, fun h => ⟨⟨h.2.trans d.withinFactors_subset, h.1⟩, h⟩⟩

/-- The sources for which scores are prepared are the non-empty sets of factors within subjects. -/
theorem mem_map_toFinset_sourcesWithin {T : Finset ℕ} : T ∈ d.sourcesWithin.map Source.toFinset ↔
    T ≠ ∅ ∧ T ⊆ d.withinFactors.toFinset := by
  rw [List.mem_map]
  constructor
  · rintro ⟨s, hs, rfl⟩
    exact hd.mem_sourcesWithin.mp hs
  · rintro ⟨hne, hsub⟩
    have hset := hd.toFinset_span_toList hsub
    exact ⟨.span T.toList, hd.mem_sourcesWithin.mpr (by rw [hset]; exact ⟨hne, hsub⟩), hset⟩

/-- A sum over these sources is one over the sets. -/
theorem sum_sourcesWithin (φ : Finset ℕ → ℝ) : (d.sourcesWithin.map fun s => φ s.toFinset).sum =
    ∑ T ∈ d.withinFactors.toFinset.powerset.erase ∅, φ T := by
  refine hd.sum_filter_all d.withinFactors_subset (fun s hs => ?_) φ
  rw [beq_iff_eq, hd.kindOf_eq_within_iff, and_iff_right (hd.mem_all_iff.mp hs).2]

/-- The scores of a set of factors are those of its source. -/
theorem scoreMatrix_toFinset {s : Source} (hs : s ∈ d.sourcesWithin) :
    d.scoreMatrix s.toFinset = d.contrastColumns s := by
  obtain ⟨hne, hsub⟩ := hd.mem_sourcesWithin.mp hs
  rw [scoreMatrix, if_neg hne, Source.toFinset_injective (hd.toFinset_span_toList hsub)]

theorem averagedCells_toFinset (s : Source) : d.averagedCells s =
    joined (flagged d.levelCount d.withinFactors s.toFinset) := by
  rw [averagedCells_eq, flags_eq_flagged d.toCoding fun f hf => hd.lt_of_mem_withinFactors hf]

/-! ## The deviations of a subject -/

variable {i : ℕ} (hi : i < d.subjectCount)

include hi

/-- The squares about the mean of a subject are all its squares less those of the mean. -/
theorem sum_sq_sub_subjectMean :
    ∑ x ∈ positions d.withinShape, (d.score i x - (subjectMeans d.scores).get i 0) ^ 2 =
      ∑ x ∈ positions d.withinShape, d.score i x ^ 2 -
        d.withinCellCount * (subjectMeans d.scores).get i 0 ^ 2 := by
  have hcard : (positions d.withinShape).card = d.withinCellCount := card_positions _
  have hmean : (positions d.withinShape).card * (subjectMeans d.scores).get i 0 =
      ∑ x ∈ positions d.withinShape, d.score i x := by
    rw [hcard, hd.get_subjectMeans_accepted hi,
      mul_div_cancel₀ _ (Nat.cast_ne_zero.mpr hd.withinCellCount_pos.ne')]
  rw [sum_sub_sq hmean, hcard]

/-- The squared deviations of a subject are the squared scores of the non-empty sets of factors. -/
theorem sum_sq_deviations :
    ∑ x ∈ positions d.withinShape, (d.score i x - (subjectMeans d.scores).get i 0) ^ 2 =
      ∑ T ∈ d.withinFactors.toFinset.powerset.erase ∅,
        (joined (flagged d.levelCount d.withinFactors T) : ℝ) *
          ∑ j ∈ range (d.scoreMatrix T).cols, (d.scoreMatrix T).get i j ^ 2 := by
  have hall := hd.sum_joined_mul_sum_sq_row hi
  -- the share of the empty set is the mean, once for each cell
  rw [← add_sum_erase _ _ (empty_mem_powerset _), joined_flagged_empty, cols_scoreMatrix_empty,
    sum_range_one, scoreMatrix_empty] at hall
  rw [hd.sum_sq_sub_subjectMean hi, ← hall]
  exact add_sub_cancel_left _ _

end Accepted

/-- **The contrast scores account for every deviation.**  An analysis prepares contrast scores for
each non-empty set of factors within subjects.  For every subject, the squares of its scores about
its mean are the squares of its contrast scores over all these sets, each as often as there are
combinations of levels of the factors within subjects that the set leaves out. -/
theorem sum_sq_deviations_eq_sum_scores {t : ObservationTable ℝ} (ht : t.Built)
    {settings : Settings} {d : Design ℝ} (h : ofTable t settings = .ok d) :
    ∃ a, Analysis.ofTable t settings = .ok a ∧ a.design = d ∧
      (∀ D ∈ a.scores, d.contrastScores D.source = .ok D) ∧
      (a.scores.map fun D => D.source.toFinset).Nodup ∧
      (∀ T : Finset ℕ, T ∈ (a.scores.map fun D => D.source.toFinset) ↔
        T ≠ ∅ ∧ T ⊆ d.withinFactors.toFinset) ∧
      ∀ i < d.subjectCount,
        ∑ x ∈ positions d.withinShape, (d.score i x - a.means.get i 0) ^ 2 =
          (a.scores.map fun D => (d.averagedCells D.source : ℝ) *
            ∑ c ∈ range D.columns.cols, D.columns.get i c ^ 2).sum := by
  have hd := accepted_of_ofTable ht h
  have hrun : Analysis.ofTable t settings = .ok (d.prepared settings ∅) := by
    rw [Analysis.ofTable, h]
    exact hd.ofDesign_eq_ok settings
  have hsets : ((d.prepared settings ∅).scores.map fun D => D.source.toFinset) =
      d.sourcesWithin.map Source.toFinset := List.map_map
  refine ⟨_, hrun, rfl, fun D hD => ?_, ?_, fun T => ?_, fun i hi => ?_⟩
  · obtain ⟨s, hs, rfl⟩ := List.mem_map.mp hD
    exact hd.contrastScores_eq_ok (beq_iff_eq.mp (List.mem_filter.mp hs).2)
  · rw [hsets]
    exact nodup_map_toFinset_sourcesWithin hd
  · rw [hsets]
    exact hd.mem_map_toFinset_sourcesWithin
  · have hscores : ((d.prepared settings ∅).scores.map fun D => (d.averagedCells D.source : ℝ) *
        ∑ c ∈ range D.columns.cols, D.columns.get i c ^ 2) =
          d.sourcesWithin.map fun s =>
            (joined (flagged d.levelCount d.withinFactors s.toFinset) : ℝ) *
              ∑ c ∈ range (d.scoreMatrix s.toFinset).cols,
                (d.scoreMatrix s.toFinset).get i c ^ 2 := by
      show (d.sourcesWithin.map d.scoresOf).map _ = _
      rw [List.map_map]
      refine List.map_congr_left fun s hs => ?_
      rw [hd.scoreMatrix_toFinset hs, ← hd.averagedCells_toFinset]
      rfl
    rw [hscores, hd.sum_sourcesWithin fun T =>
      (joined (flagged d.levelCount d.withinFactors T) : ℝ) *
        ∑ c ∈ range (d.scoreMatrix T).cols, (d.scoreMatrix T).get i c ^ 2]
    exact hd.sum_sq_deviations hi

/-- The deviations of the subject with two occasions of three tasks, and its three kinds of
scores. -/
theorem deviations_occasionsDesign : twoOccasions.Built ∧
    ofTable twoOccasions {} = .ok occasionsDesign ∧
    ∃ a, Analysis.ofTable twoOccasions {} = .ok a ∧
      (∀ T ∈ [{0}, {1}, {0, 1}], T ∈ a.scores.map fun D => D.source.toFinset) ∧
      ∑ x ∈ positions [2, 3], (occasionsDesign.score 0 x - a.means.get 0 0) ^ 2 =
        (a.scores.map fun D => (occasionsDesign.averagedCells D.source : ℝ) *
          ∑ c ∈ range D.columns.cols, D.columns.get 0 c ^ 2).sum := by
  obtain ⟨a, ha, -, -, -, hsets, hsum⟩ :=
    sum_sq_deviations_eq_sum_scores built_twoOccasions ofTable_twoOccasions
  refine ⟨built_twoOccasions, ofTable_twoOccasions, a, ha, fun T hT => (hsets T).mpr ?_,
    hsum 0 (by decide)⟩
  have hwithin : occasionsDesign.withinFactors.toFinset = {0, 1} := by decide
  rw [hwithin]
  fin_cases hT <;> decide

end Design

end SplitPlot
