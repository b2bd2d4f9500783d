import Mathlib
import SplitPlot.Proofs.Decomposition.ClosedForm
import SplitPlot.Proofs.Decomposition.ZeroSums

/-!
# Balanced designs have orthogonal effects

In a balanced design the effect of a source is the part of the cell means that belongs to its
factors between subjects (`getStretched_effect_balanced`).  That holds of every kind of source: the
part of no factor is the grand mean, and this is the effect of a source within subjects.  Two things
follow.

* An effect has zero sums along each axis that it spans (`zeroSumAlong_effect`).
* The effects of different sources with the same factors within subjects are orthogonal over the
  cells, for any pair of variables (`sum_effect_mul_effect`): they belong to different sets of
  factors.

The run subtracts from the means of a source the effects of its sub-sources, and these are found in
the same way.  In cells of different sizes what is left is shifted, and neither need hold.
-/

namespace SplitPlot

open Finset

/-- With all listed factors flagged every axis is kept. -/
theorem keptShape_flagged_toFinset (extent : ℕ → ℕ) (factors : List ℕ) :
    keptShape (flagged extent factors factors.toFinset) = factors.map extent := by
  rw [keptShape, flagged, List.map_map]
  refine List.map_congr_left fun f hf => ?_
  rw [Function.comp_apply, decide_eq_true (List.mem_toFinset.mpr hf)]
  rfl

namespace Design

variable {d : Design ℝ} {values : Mat ℝ} {j : ℕ} {B : Finset ℕ}

/-! ## The parts of the cell means -/

/-- The part of a set of factors has zero sums along each of their axes. -/
theorem zeroSumAlong_cellPart {a n : ℕ}
    (ha : (flagged d.levelCount d.betweenFactors B)[a]? = some (n, true)) :
    ZeroSumAlong (keptShape (flagged d.levelCount d.betweenFactors B)) a
      (d.cellPart values j B) := by
  refine zeroSumAlong_pureLine ha _ ?_ (length_keptShape _)
  rw [keptShape, List.getElem?_map, ha]
  rfl

/-- A part is read at a cell as at the position of the cell in the table of the part. -/
theorem cellPart_squash (hB : B ⊆ d.betweenFactors.toFinset) {x : List ℕ}
    (hx : x ∈ d.cellPositions) :
    d.cellPart values j B (squash (keptShape (flagged d.levelCount d.betweenFactors B)) x) =
      d.cellPart values j B x := by
  refine pureLine_squash hB _ ?_
  rw [keptShape_flagged_toFinset]
  exact mem_positions.mp hx

namespace Accepted

variable (hd : d.Accepted) {m : ℕ} (hm : d.Balanced m) (settings : Settings) {s : Source}
  (hs : s ∈ Source.all d.factorCount)

/-! ## Effects -/

include hd hs hm

/-- The effect of a source is the part of the cell means that belongs to its factors between
subjects. -/
theorem get_effect_balanced (hj : j < (d.scoreMatrix (d.withinPart s)).cols) {x : List ℕ}
    (hx : x ∈ positions (keptShape (d.flags d.betweenFactors s))) :
    (d.resultOf settings s).effect.values.get (x ++ [j]) =
      d.cellPart (d.scoreMatrix (d.withinPart s)) j (d.betweenPart s) x := by
  by_cases hkind : d.kindOf s = .within
  · have hlen : x.length = d.betweenFactors.length := by
      rw [(mem_positions.mp hx).length_eq, length_keptShape, Coding.length_flags]
    rw [hd.get_effect_within settings hkind hx hj,
      hd.grandMean_balanced hm (hd.rows_scoreMatrix _) hj, hd.betweenPart_eq_empty hkind, cellPart,
      pureLine_empty _ _ hlen]
    rfl
  · rw [hd.effect_eq_pureEffect settings hkind]
    exact hd.get_pureEffect_balanced hm hj (hd.mem_all_iff.mp hs).1
      (hd.betweenPart_ne_empty hs hkind) (mem_positions.mp hx)

/-- The effect of a source as it is read at any cell. -/
theorem getStretched_effect_balanced (hj : j < (d.scoreMatrix (d.withinPart s)).cols) {x : List ℕ}
    (hx : x ∈ d.cellPositions) : (d.resultOf settings s).effect.values.getStretched (x ++ [j]) =
      d.cellPart (d.scoreMatrix (d.withinPart s)) j (d.betweenPart s) x := by
  obtain ⟨hsquash, -⟩ := squash_kept (S := d.betweenPart s) (nodup_betweenFactors d.toCoding) hx
  have hlen : x.length = (keptShape (d.flags d.betweenFactors s)).length := by
    rw [length_keptShape, Coding.length_flags, length_of_mem_positions hx]
  rw [← hd.flags_between] at hsquash
  rw [Grid.getStretched_append (hd.shape_effect settings) hlen hj,
    hd.get_effect_balanced hm settings hs hj hsquash, hd.flags_between]
  exact cellPart_squash inter_subset_right hx

/-- An effect has zero sums along each axis that its source spans. -/
theorem zeroSumAlong_effect {a : ℕ} (ha : a ∈ d.betweenAxes s)
    (hj : j < (d.scoreMatrix (d.withinPart s)).cols) :
    ZeroSumAlong (keptShape (d.flags d.betweenFactors s)) a
      fun x => (d.resultOf settings s).effect.values.get (x ++ [j]) := by
  obtain ⟨n, hn⟩ := d.getElem?_flags ha
  rw [hd.flags_between] at hn
  have hpart : ZeroSumAlong (keptShape (d.flags d.betweenFactors s)) a
      (d.cellPart (d.scoreMatrix (d.withinPart s)) j (d.betweenPart s)) := by
    rw [hd.flags_between]
    exact zeroSumAlong_cellPart hn
  refine hpart.congr ?_
  intro x hx
  exact (hd.get_effect_balanced hm settings hs hj (mem_positions.mpr hx)).symm

/-- The effects of different sources with the same factors within subjects are orthogonal. -/
theorem sum_effect_mul_effect {s' : Source} (hs' : s' ∈ Source.all d.factorCount) (hne : s ≠ s')
    (hwithin : d.withinPart s = d.withinPart s') {i : ℕ}
    (hi : i < (d.scoreMatrix (d.withinPart s)).cols)
    (hj : j < (d.scoreMatrix (d.withinPart s')).cols) :
    ∑ x ∈ d.cellPositions, (d.resultOf settings s).effect.values.getStretched (x ++ [i]) *
      (d.resultOf settings s').effect.values.getStretched (x ++ [j]) = 0 := by
  have hparts : d.betweenPart s ≠ d.betweenPart s' := fun heq =>
    hne <| Source.toFinset_injective <| by
      rw [← betweenPart_union_withinPart (hd.mem_all_iff.mp hs).1,
        ← betweenPart_union_withinPart (hd.mem_all_iff.mp hs').1, heq, hwithin]
  rw [sum_congr rfl fun x hx => by rw [hd.getStretched_effect_balanced hm settings hs hi hx,
    hd.getStretched_effect_balanced hm settings hs' hj hx]]
  exact sum_pureLine_mul_pureLine inter_subset_right inter_subset_right hparts _ _

end Accepted

/-- **Balanced effects.**  In a balanced design the effect that the run reports for a source between
subjects, or with factors of both kinds, has zero sums along each axis between subjects that the
source spans, for every variable.  And the effects of two different sources with the same factors
within subjects, read at all cells, are orthogonal, for every pair of variables. -/
theorem anova_effects_orthogonal {t : ObservationTable ℝ} (ht : t.Built) {settings : Settings}
    {d : Design ℝ} (h : ofTable t settings = .ok d) {m : ℕ} (hm : d.Balanced m) :
    ∃ table, anova t settings = .ok table ∧
      table.results.map (·.source) = Source.all d.factorCount ∧
      (∀ r ∈ table.results, r.kind = d.kindOf r.source ∧ r.effect.values.shape =
        keptShape (d.flags d.betweenFactors r.source) ++ [(d.cellsOf r.source).variableCount]) ∧
      (∀ r ∈ table.results, r.kind ≠ .within → ∀ a ∈ d.betweenAxes r.source,
        ∀ j < (d.cellsOf r.source).variableCount,
          ZeroSumAlong (keptShape (d.flags d.betweenFactors r.source)) a
            fun x => r.effect.values.get (x ++ [j])) ∧
      ∀ r ∈ table.results, ∀ r' ∈ table.results, r.source ≠ r'.source →
        r.source.intersection d.withinMask = r'.source.intersection d.withinMask →
          ∀ i < (d.cellsOf r.source).variableCount, ∀ j < (d.cellsOf r'.source).variableCount,
            ∑ x ∈ d.cellPositions, r.effect.values.getStretched (x ++ [i]) *
              r'.effect.values.getStretched (x ++ [j]) = 0 := by
  have hd := accepted_of_ofTable ht h
  have hcols : ∀ s, (d.cellsOf s).variableCount = (d.scoreMatrix (d.withinPart s)).cols :=
    fun s => by rw [hd.cellsOf_eq, variableCount_statistics]
  refine ⟨_, anova_eq_ok ht h, map_source_results settings _, fun r hr => ?_,
    fun r hr _ a ha j hj => ?_, fun r hr r' hr' hne hmask i hi j hj => ?_⟩
  · obtain ⟨s, hs, rfl⟩ := List.mem_map.mp hr
    rw [kind_resultOf, source_resultOf, hcols, hd.shape_effect settings]
    exact ⟨rfl, rfl⟩
  · obtain ⟨s, hs, rfl⟩ := List.mem_map.mp hr
    rw [source_resultOf] at ha hj ⊢
    exact hd.zeroSumAlong_effect hm settings hs ha (hcols s ▸ hj)
  · obtain ⟨s, hs, rfl⟩ := List.mem_map.mp hr
    obtain ⟨s', hs', rfl⟩ := List.mem_map.mp hr'
    rw [source_resultOf] at hne hmask hi
    rw [source_resultOf] at hne hmask hj
    have hwithin : d.withinPart s = d.withinPart s' := by
      have hset := congrArg Source.toFinset hmask
      rwa [Source.toFinset_intersection, Source.toFinset_intersection,
        hd.toFinset_withinMask] at hset
    exact hd.sum_effect_mul_effect hm settings hs hs' hne hwithin (hcols s ▸ hi) (hcols s' ▸ hj)

/-- Two factors between subjects with one subject in each of their four cells, measured twice. -/
noncomputable def fourCells : ObservationTable ℝ :=
  wholeTable 3 [(1, [0, 0, 0], 3), (1, [0, 0, 1], 5), (2, [0, 1, 0], 4), (2, [0, 1, 1], 9),
    (3, [1, 0, 0], 6), (3, [1, 0, 1], 7), (4, [1, 1, 0], 1), (4, [1, 1, 1], 8)]

/-- The effects of the interaction of all three factors and of one factor with the occasions. -/
theorem orthogonal_fourCells : fourCells.Built ∧ ∃ d, ofTable fourCells {} = .ok d ∧ d.Balanced 1 ∧
    ∃ table, anova fourCells {} = .ok table ∧ ∃ r ∈ table.results, ∃ r' ∈ table.results,
      r.source = .span [0, 1, 2] ∧ r'.source = .span [0, 2] ∧
      ZeroSumAlong [2, 2] 1 (fun x => r.effect.values.get (x ++ [0])) ∧
      ∑ x ∈ positions [2, 2], r.effect.values.getStretched (x ++ [0]) *
        r'.effect.values.getStretched (x ++ [0]) = 0 := by
  have ht : fourCells.Built := built_wholeTable (by decide) (by decide)
  have h : ofTable fourCells {} = .ok (tableCoding fourCells {}).toDesign := rfl
  have hm : (tableCoding fourCells {}).toDesign.Balanced 1 := by
    have hcount : ∀ cell < (tableCoding fourCells {}).betweenCellCount,
        (tableCoding fourCells {}).cells.count cell = 1 := by decide
    exact hcount
  obtain ⟨table, htable, hsources, hkinds, hzero, horthogonal⟩ := anova_effects_orthogonal ht h hm
  obtain ⟨r, hr, hr012⟩ := List.mem_map.mp
    (hsources ▸ (by decide : Source.span [0, 1, 2] ∈ Source.all 3))
  obtain ⟨r', hr', hr02⟩ := List.mem_map.mp
    (hsources ▸ (by decide : Source.span [0, 2] ∈ Source.all 3))
  refine ⟨ht, _, h, hm, table, htable, r, hr, r', hr', hr012, hr02, ?_, ?_⟩
  · have hkind : r.kind ≠ .within := by
      rw [(hkinds r hr).1, hr012]
      decide
    have hshape := hzero r hr hkind 1 (by rw [hr012]; decide) 0 (by rw [hr012]; decide)
    rw [hr012] at hshape
    exact hshape
  · exact horthogonal r hr r' hr' (by rw [hr012, hr02]; decide) (by rw [hr012, hr02]; decide) 0
      (by rw [hr012]; decide) 0 (by rw [hr02]; decide)

end Design

end SplitPlot
