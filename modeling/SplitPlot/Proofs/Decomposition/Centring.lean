import Mathlib
import SplitPlot.Proofs.Decomposition.Restriction
import SplitPlot.Proofs.Design.Parts

/-!
# Where effects are centred

The means of the cells fall into parts, one for each set of factors between subjects, and one would
like the effect of a source to be the part of its factors.  It is, up to a number.

The effect of a source is its marginal means less their weighted mean and the effects of its
sub-sources.  The marginal means are the sum of the parts of all subsets, so what the parts
contribute cancels but for the part of the source itself.  The weighted means are another matter.
Each source weights its marginal means with the harmonic means of the sizes of the cells that *it*
joins, so each takes another number away (`Design.centre`), and of these numbers an alternating sum
is left over (`Design.drift`).  The effect of a source is the part of its factors plus its drift,
the same number in every cell (`get_pureEffect_eq`).

Nothing is assumed about the sizes of the cells except that none is empty, which holds in every
accepted design.
-/

namespace SplitPlot

open Finset

/-- Alternating sums over the subsets of the subsets of a set leave the value at the set itself. -/
theorem sum_powerset_alternating {α : Type} [DecidableEq α] (S : Finset α) (h : Finset α → ℝ) :
    ∑ B ∈ S.powerset, ∑ C ∈ B.powerset, (-1) ^ (B.card + C.card) * h C = h S := by
  induction S using Finset.induction_on generalizing h with
  | empty => simp
  | insert a S ha ih =>
    have hsplit : ∀ B ∈ S.powerset,
        ∑ C ∈ (insert a B).powerset, (-1) ^ ((insert a B).card + C.card) * h C =
          -∑ C ∈ B.powerset, (-1) ^ (B.card + C.card) * h C +
            ∑ C ∈ B.powerset, (-1) ^ (B.card + C.card) * h (insert a C) := by
      intro B hB
      have haB : a ∉ B := fun h => ha (mem_powerset.mp hB h)
      rw [sum_powerset_insert haB, card_insert_of_notMem haB, ← sum_neg_distrib]
      refine congrArg₂ (· + ·) (sum_congr rfl fun C _ => by ring) (sum_congr rfl fun C hC => ?_)
      rw [card_insert_of_notMem fun h => haB (mem_powerset.mp hC h)]
      ring
    rw [sum_powerset_insert ha, sum_congr rfl hsplit, sum_add_distrib, sum_neg_distrib, ih, ih]
    ring

namespace Design

/-! ## Parts, centres and drift -/

section Definitions

variable (d : Design ℝ) (values : Mat ℝ) (j : ℕ)

/-- The mean of a variable in a cell between subjects, by the position of the cell. -/
noncomputable def cellMeanAt (x : List ℕ) : ℝ := (d.statistics values).means.get (x ++ [j])

/-- The part of the cell means of a variable that belongs to a set of factors between subjects. -/
noncomputable def cellPart (B : Finset ℕ) (x : List ℕ) : ℝ :=
  pureLine (flagged d.levelCount d.betweenFactors B) (d.cellMeanAt values j) x

/-- The mean of the marginal means of a variable over a set of factors between subjects, weighted
with the harmonic means of the sizes of the cells that are joined.  Over no factor this is the mean
of all cell means. -/
noncomputable def centre (B : Finset ℕ) : ℝ :=
  let axes := flagged d.levelCount d.betweenFactors B
  (∑ x ∈ positions (keptShape axes), lineKeep mean axes (d.cellMeanAt values j) x *
      lineKeep harmonicMean axes (d.statistics values).counts.get x) /
    ∑ x ∈ positions (keptShape axes), lineKeep harmonicMean axes (d.statistics values).counts.get x

/-- What the centres of the subsets of a set of factors leave in its effect: their alternating
sum. -/
noncomputable def drift (B : Finset ℕ) : ℝ :=
  -∑ C ∈ B.powerset, (-1) ^ (B.card + C.card) * d.centre values j C

end Definitions

variable {d : Design ℝ} {values : Mat ℝ} {j : ℕ}

/-- The drifts of the subsets of a set add up to its centre. -/
theorem sum_drift (B : Finset ℕ) :
    ∑ C ∈ B.powerset, d.drift values j C = -d.centre values j B := by
  simp only [drift]
  rw [sum_neg_distrib, sum_powerset_alternating]

theorem drift_empty : d.drift values j ∅ = -d.centre values j ∅ := by
  rw [← sum_drift, powerset_empty, sum_singleton]

namespace Accepted

variable (hd : d.Accepted)

include hd

theorem pos_of_mem_flags {s : Source} {n : ℕ}
    (hn : n ∈ (d.flags d.betweenFactors s).map (·.1)) : 0 < n := by
  rw [Coding.map_fst_flags] at hn
  obtain ⟨f, hf, rfl⟩ := List.mem_map.mp hn
  exact hd.levelCount_between_pos hf

/-! ## The sizes of the cells -/

theorem get_counts_pos {x : List ℕ} (hx : InBounds x d.betweenShape) :
    0 < (d.statistics values).counts.get x := by
  rw [statistics, CellStatistics.get_counts hx]
  exact Nat.cast_pos.mpr (List.count_pos_iff.mpr (hd.mem_subjectCells (flatIndex_lt hx)))

theorem lineKeep_counts_pos {B : Finset ℕ} {x : List ℕ}
    (hx : InBounds x (keptShape (flagged d.levelCount d.betweenFactors B))) :
    0 < lineKeep harmonicMean (flagged d.levelCount d.betweenFactors B)
      (d.statistics values).counts.get x := by
  refine lineKeep_induction (P := (0 < ·)) (fun l hl hall => ?_) (fun y hy => ?_) hx
  · rw [map_fst_flagged] at hl
    obtain ⟨f, hf, hlen⟩ := List.mem_map.mp hl
    exact harmonicMean_pos (List.ne_nil_of_length_pos (hlen ▸ hd.levelCount_between_pos hf)) hall
  · rw [map_fst_flagged] at hy
    exact hd.get_counts_pos hy

theorem sum_lineKeep_counts_pos {B : Finset ℕ} {x : List ℕ}
    (hx : InBounds x (keptShape (flagged d.levelCount d.betweenFactors B))) :
    0 < ∑ x ∈ positions (keptShape (flagged d.levelCount d.betweenFactors B)),
      lineKeep harmonicMean (flagged d.levelCount d.betweenFactors B)
        (d.statistics values).counts.get x :=
  sum_pos (fun _ hy => hd.lineKeep_counts_pos (mem_positions.mp hy)) ⟨x, mem_positions.mpr hx⟩

theorem cellWeight_pos {s : Source} {x : List ℕ}
    (hx : InBounds x (keptShape (d.flags d.betweenFactors s))) : 0 < d.cellWeight values s x := by
  rw [cellWeight]
  split
  · show 0 < harmonicMean (d.statistics values).counts.toList
    have hshape : (d.statistics values).counts.shape = d.betweenShape := rfl
    rw [Grid.toList_eq, hshape]
    refine harmonicMean_pos ?_ fun y hy => ?_
    · rw [Ne, List.map_eq_nil_iff, ← List.length_eq_zero_iff, length_multiIndices]
      exact hd.betweenCellCount_pos.ne'
    · obtain ⟨z, hz, rfl⟩ := List.mem_map.mp hy
      exact hd.get_counts_pos (mem_multiIndices.mp hz)
  · rw [get_marginalCounts hx]
    rw [hd.flags_between] at hx ⊢
    exact hd.lineKeep_counts_pos hx

/-- The weights of a hypothesis matrix do not all vanish. -/
theorem sum_hypothesisWeights_pos (values : Mat ℝ) (s : Source) :
    0 < ((d.statistics values).hypothesisWeights (d.betweenAxes s) (s == d.fullSource)).sum := by
  have hpos : ∀ a ∈ d.flags d.betweenFactors s, 0 < a.1 := fun a ha =>
    hd.pos_of_mem_flags (List.mem_map_of_mem ha)
  have hcells : 0 < (positions (keptShape (d.flags d.betweenFactors s))).card := by
    have hcard := joined_mul_cellCount_keptShape (d.flags d.betweenFactors s)
    have hall : 0 < cellCount (d.betweenFactors.map d.levelCount) := hd.betweenCellCount_pos
    rw [Coding.map_fst_flags] at hcard
    rw [card_positions]
    rw [← hcard] at hall
    exact pos_of_mul_pos_right hall (Nat.zero_le _)
  rw [Grid.sum_eq, shape_hypothesisWeights]
  refine sum_pos (fun x hx => ?_) (card_pos.mp hcells)
  rw [get_hypothesisWeights (mem_positions.mp hx)]
  exact mul_pos (hd.cellWeight_pos (mem_positions.mp hx)) (Nat.cast_pos.mpr (joined_pos hpos))

/-! ## Centres -/

/-- The weighted mean of the marginal means of a source is the centre of its factors between
subjects. -/
theorem getStretched_weightedMean_eq {s : Source} {x : List ℕ}
    (hx : InBounds x (keptShape (d.flags d.betweenFactors s))) (hj : j < values.cols) :
    ((d.statistics values).weightedMean (d.betweenAxes s)).getStretched (x ++ [j]) =
      d.centre values j (d.betweenPart s) := by
  have hcounts : ∑ y ∈ positions (keptShape (d.flags d.betweenFactors s)),
      ((d.statistics values).marginalCounts (d.betweenAxes s)).get y =
        ∑ y ∈ positions (keptShape (d.flags d.betweenFactors s)),
          lineKeep harmonicMean (d.flags d.betweenFactors s) (d.statistics values).counts.get y :=
    sum_congr rfl fun y hy => get_marginalCounts (mem_positions.mp hy)
  have hpos := hx
  rw [hd.flags_between] at hpos
  rw [getStretched_weightedMean hx hj, hcounts, centre, ← hd.flags_between]
  · refine congrArg (· / _) (sum_congr rfl fun y hy => ?_)
    rw [get_marginalMeans (mem_positions.mp hy) hj, get_marginalCounts (mem_positions.mp hy)]
    rfl
  · rw [hcounts, hd.flags_between]
    exact hd.sum_lineKeep_counts_pos hpos

/-- Over no factor the centre is the mean of all cell means. -/
theorem centre_empty {x : List ℕ} (hlen : x.length = d.betweenFactors.length) :
    d.centre values j ∅ = d.cellPart values j ∅ x := by
  set axes := flagged d.levelCount d.betweenFactors ∅ with haxes
  have hmean : ∀ y ∈ positions (keptShape axes), lineKeep mean axes (d.cellMeanAt values j) y =
      d.cellPart values j ∅ x := fun y hy => by
    have hy' : y.length = d.betweenFactors.length := by
      rw [(mem_positions.mp hy).length_eq, length_keptShape, length_flagged]
    rw [haxes, lineKeep_eq_sum_pureLine (nodup_betweenFactors d.toCoding) (empty_subset _) _ hy'.ge,
      powerset_empty, sum_singleton, cellPart, pureLine_empty _ _ hlen, pureLine_empty _ _ hy']
  have hzero : InBounds (d.betweenFactors.map fun _ => 0) (keptShape axes) := by
    have hshape : keptShape axes = d.betweenFactors.map fun _ => 1 := by
      simp [haxes, keptShape, flagged, Function.comp_def]
    have hones : ∀ l : List ℕ, InBounds (l.map fun _ => 0) (l.map fun _ => 1) := fun l => by
      induction l with
      | nil => trivial
      | cons _ _ ih => exact ⟨Nat.one_pos, ih⟩
    rw [hshape]
    exact hones d.betweenFactors
  have hpos : ∑ y ∈ positions (keptShape axes),
      lineKeep harmonicMean axes (d.statistics values).counts.get y ≠ 0 :=
    (hd.sum_lineKeep_counts_pos hzero).ne'
  rw [centre, ← haxes, sum_congr rfl fun y hy => by rw [hmean y hy], ← mul_sum,
    mul_div_cancel_right₀ _ hpos]

/-! ## The effect of a source -/

/-- The effect of a source is the part of the cell means that belongs to its factors between
subjects, shifted by its drift. -/
theorem get_pureEffect_eq (hj : j < values.cols) {s : Source}
    (hs : s.toFinset ⊆ range d.factorCount) (hne : d.betweenPart s ≠ ∅) {x : List ℕ}
    (hx : InBounds x (keptShape (d.flags d.betweenFactors s))) :
    (d.pureEffect (d.statistics values) s).get (x ++ [j]) =
      d.cellPart values j (d.betweenPart s) x + d.drift values j (d.betweenPart s) := by
  -- on the number of factors between subjects: a sub-source has fewer
  induction hcard : (d.betweenPart s).card using Nat.strong_induction_on generalizing s x with
  | _ n ih =>
    have hlen : x.length = d.betweenFactors.length := by
      rw [hx.length_eq, length_keptShape, Coding.length_flags]
    have hmargin : lineKeep mean (d.flags d.betweenFactors s)
        (fun x => (d.statistics values).means.get (x ++ [j])) x =
          ∑ B ∈ (d.betweenPart s).powerset, d.cellPart values j B x := by
      rw [hd.flags_between]
      exact lineKeep_eq_sum_pureLine (nodup_betweenFactors d.toCoding) inter_subset_right
        (d.cellMeanAt values j) hlen.ge
    have hsub : ∀ t ∈ d.subSources s, (d.pureEffect (d.statistics values) t).get
        (squash (keptShape (d.flags d.betweenFactors t)) x ++ [j]) =
          d.cellPart values j (d.betweenPart t) x + d.drift values j (d.betweenPart t) := by
      intro t ht
      obtain ⟨ht, -, hlt, hnet⟩ := (hd.mem_subSources_iff hs).mp ht
      have hx' := hx
      rw [hd.flags_between] at hx'
      have hsquash := inBounds_squash hlt.1 hx'
      rw [hd.flags_between, ih _ (hcard ▸ card_lt_card hlt) ht hnet (by rwa [hd.flags_between]) rfl]
      exact congrArg (· + _) (pureLine_squash hlt.1 _ hx')
    have hempty : ∅ ∈ (d.betweenPart s).ssubsets :=
      empty_mem_ssubsets (nonempty_iff_ne_empty.mpr hne)
    -- a sum over all subsets is one over the set, the empty set and those in between
    have hsplit : ∀ φ : Finset ℕ → ℝ, ∑ B ∈ (d.betweenPart s).powerset, φ B =
        φ (d.betweenPart s) + (φ ∅ + ∑ B ∈ (d.betweenPart s).ssubsets.erase ∅, φ B) := fun φ => by
      rw [add_sum_erase _ _ hempty]
      exact (add_sum_erase _ _ (mem_powerset_self (d.betweenPart s))).symm
    have hdrift : ∑ C ∈ (d.betweenPart s).powerset, d.drift values j C =
        -d.centre values j (d.betweenPart s) := sum_drift _
    rw [hsplit, drift_empty, hd.centre_empty hlen] at hdrift
    rw [get_pureEffect hx hj, hmargin, hd.getStretched_weightedMean_eq hx hj,
      List.map_congr_left hsub,
      hd.sum_subSources hs fun B => d.cellPart values j B x + d.drift values j B, hsplit,
      sum_add_distrib]
    linarith

end Accepted

end Design

end SplitPlot
