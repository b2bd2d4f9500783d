import Mathlib
import SplitPlot.Proofs.Decomposition.Alike
import SplitPlot.Proofs.Decomposition.Centring

/-!
# Effects as alternating sums of margins

The effect of a source is found by recursion: it is what its marginal means show beyond their centre
and the effects of its sub-sources.  Solved for the effect, the recursion is an alternating sum.
Each set of factors of the source contributes its marginal means less their centre, with the sign of
the number of factors that are missing (`get_pureEffect_eq_effectAt`).

The marginal means and sizes are read here at all cells and not only at those of a reduced table.
Then the centre and the hypothesis matrix are sums over all cells as well (`centre_eq_div`,
`get_hypothesis_eq_sum`), and nothing is left of the order in which the factors are listed but the
positions themselves.
-/

namespace SplitPlot

open Finset

/-- What the subsets of the subsets of a set add up to is taken apart by an alternating sum. -/
theorem alternating_sum_powerset {α : Type} [DecidableEq α] (S : Finset α) (p : Finset α → ℝ) :
    ∑ B ∈ S.powerset, (-1) ^ (S.card + B.card) * ∑ C ∈ B.powerset, p C = p S := by
  have hsign : ∀ B C : Finset α, (-1 : ℝ) ^ (S.card + B.card) * p C =
      (-1) ^ (B.card + C.card) * ((-1) ^ (S.card + C.card) * p C) := by
    intro B C
    have heven : (-1 : ℝ) ^ (C.card + C.card) = 1 := Even.neg_one_pow ⟨C.card, rfl⟩
    rw [← mul_assoc, ← pow_add, add_add_add_comm, add_comm B.card, pow_add _ _ (C.card + C.card),
      heven, mul_one]
  have hself : (-1 : ℝ) ^ (S.card + S.card) = 1 := Even.neg_one_pow ⟨S.card, rfl⟩
  calc ∑ B ∈ S.powerset, (-1) ^ (S.card + B.card) * ∑ C ∈ B.powerset, p C
      = ∑ B ∈ S.powerset, ∑ C ∈ B.powerset,
          (-1) ^ (B.card + C.card) * ((-1) ^ (S.card + C.card) * p C) :=
        sum_congr rfl fun B _ => (mul_sum ..).trans (sum_congr rfl fun C _ => hsign B C)
    _ = (-1) ^ (S.card + S.card) * p S :=
        sum_powerset_alternating S fun C => (-1) ^ (S.card + C.card) * p C
    _ = p S := by rw [hself, one_mul]

/-- The part of a function that belongs to a set of factors is the alternating sum of its means over
the axes outside the subsets. -/
theorem pureLine_eq_sum_lineKeep {extent : ℕ → ℕ} {factors : List ℕ} (hnodup : factors.Nodup)
    {S : Finset ℕ} (hS : S ⊆ factors.toFinset) (g : List ℕ → ℝ) {x : List ℕ}
    (hlen : x.length = factors.length) :
    pureLine (flagged extent factors S) g x = ∑ B ∈ S.powerset,
      (-1) ^ (S.card + B.card) * lineKeep mean (flagged extent factors B) g x := by
  rw [← alternating_sum_powerset S fun C => pureLine (flagged extent factors C) g x]
  refine sum_congr rfl fun B hB => congrArg _ ?_
  exact (lineKeep_eq_sum_pureLine hnodup ((mem_powerset.mp hB).trans hS) g hlen.ge).symm

namespace Design

/-! ## Margins -/

section Definitions

variable (d : Design ℝ) (values : Mat ℝ) (j : ℕ)

/-- The cells between subjects. -/
def cellPositions : Finset (List ℕ) := positions (d.betweenFactors.map d.levelCount)

/-- The mean of the cell means of a variable over the cells that share the levels of the factors of
a set with a given cell. -/
noncomputable def margin (S : Finset ℕ) (x : List ℕ) : ℝ :=
  lineKeep mean (flagged d.levelCount d.betweenFactors S) (d.cellMeanAt values j) x

/-- The harmonic mean of the sizes of these cells. -/
noncomputable def marginSize (S : Finset ℕ) (x : List ℕ) : ℝ :=
  lineKeep harmonicMean (flagged d.levelCount d.betweenFactors S) (d.statistics values).counts.get x

/-- The alternating sum of the centred margins over the subsets of a set of factors. -/
noncomputable def effectAt (B : Finset ℕ) (x : List ℕ) : ℝ :=
  ∑ S ∈ B.powerset, (-1) ^ (B.card + S.card) * (d.margin values j S x - d.centre values j S)

/-- The weight of a cell in the hypothesis matrix of a source. -/
noncomputable def weightAt (s : Source) (x : List ℕ) : ℝ :=
  if s = d.fullSource then (d.statistics values).harmonicN
  else d.marginSize values (d.betweenPart s) x

end Definitions

variable {d : Design ℝ} {values : Mat ℝ} {j : ℕ}

namespace Accepted

variable (hd : d.Accepted)

include hd

theorem marginSize_pos (S : Finset ℕ) {x : List ℕ} (hx : x ∈ d.cellPositions) :
    0 < d.marginSize values S x :=
  lineKeep_harmonicMean_pos hx fun _ hy => hd.get_counts_pos (mem_positions.mp hy)

omit hd in
/-- Margins do not look at the levels of other factors. -/
theorem margin_eq_of_agree {S : Finset ℕ} {x y : List ℕ} (hx : x ∈ d.cellPositions)
    (hy : y ∈ d.cellPositions) (h : Agree d.betweenFactors S x y) :
    d.margin values j S y = d.margin values j S x :=
  (lineKeep_mean_eq_of_agree (nodup_betweenFactors d.toCoding) hx hy h _).symm

theorem marginSize_eq_of_agree {S : Finset ℕ} {x y : List ℕ} (hx : x ∈ d.cellPositions)
    (hy : y ∈ d.cellPositions) (h : Agree d.betweenFactors S x y) :
    d.marginSize values S y = d.marginSize values S x :=
  (lineKeep_harmonicMean_eq_of_agree (nodup_betweenFactors d.toCoding) hx hy h
    fun _ hz => hd.get_counts_pos (mem_positions.mp hz)).symm

omit hd in
theorem effectAt_eq_of_agree {B : Finset ℕ} {x y : List ℕ} (hx : x ∈ d.cellPositions)
    (hy : y ∈ d.cellPositions) (h : Agree d.betweenFactors B x y) :
    d.effectAt values j B y = d.effectAt values j B x :=
  sum_congr rfl fun S hS => by
    rw [margin_eq_of_agree hx hy (h.mono (mem_powerset.mp hS))]

/-! ## The centre -/

/-- The sum of a function of a margin over the reduced table and over all cells. -/
theorem joined_mul_sum_margins {S : Finset ℕ} {g : List ℕ → ℝ}
    (hg : ∀ x ∈ d.cellPositions, ∀ y ∈ d.cellPositions, Agree d.betweenFactors S x y → g y = g x) :
    (joined (flagged d.levelCount d.betweenFactors S) : ℝ) *
        ∑ x ∈ positions (keptShape (flagged d.levelCount d.betweenFactors S)), g x =
      ∑ x ∈ d.cellPositions, g x :=
  joined_mul_sum_keptShape (nodup_betweenFactors d.toCoding)
    (fun _ hf => hd.levelCount_between_pos hf) hg

/-- The centre of a margin is its mean over all cells, weighted with the sizes. -/
theorem centre_eq_div (S : Finset ℕ) : d.centre values j S =
    (∑ x ∈ d.cellPositions, d.margin values j S x * d.marginSize values S x) /
      ∑ x ∈ d.cellPositions, d.marginSize values S x := by
  have hjoined : (joined (flagged d.levelCount d.betweenFactors S) : ℝ) ≠ 0 := by
    refine (Nat.cast_pos.mpr (joined_pos fun a ha => ?_)).ne'
    obtain ⟨f, hf, rfl⟩ := List.mem_map.mp ha
    exact hd.levelCount_between_pos hf
  have hsize := hd.joined_mul_sum_margins (g := d.marginSize values S)
    fun x hx y hy h => hd.marginSize_eq_of_agree hx hy h
  have hmargin := hd.joined_mul_sum_margins
    (g := fun x => d.margin values j S x * d.marginSize values S x) fun x hx y hy h => by
      rw [margin_eq_of_agree hx hy h, hd.marginSize_eq_of_agree hx hy h]
  rw [← hsize, ← hmargin, mul_div_mul_left _ _ hjoined]
  rfl

/-! ## Effects -/

omit hd in
/-- The part of a set of factors is the alternating sum of the margins of its subsets. -/
theorem cellPart_eq_sum_margin {B : Finset ℕ} (hB : B ⊆ d.betweenFactors.toFinset) {x : List ℕ}
    (hlen : x.length = d.betweenFactors.length) : d.cellPart values j B x =
      ∑ S ∈ B.powerset, (-1) ^ (B.card + S.card) * d.margin values j S x :=
  pureLine_eq_sum_lineKeep (nodup_betweenFactors d.toCoding) hB _ hlen

theorem mem_cellPositions {s : Source} {x : List ℕ}
    (hx : x ∈ positions (keptShape (d.flags d.betweenFactors s))) : x ∈ d.cellPositions := by
  rw [hd.flags_between] at hx
  exact mem_positions_of_keptShape (fun _ hf => hd.levelCount_between_pos hf) hx

/-- The effect of a source is the alternating sum of the centred margins of its factors between
subjects. -/
theorem get_pureEffect_eq_effectAt (hj : j < values.cols) {s : Source}
    (hs : s.toFinset ⊆ range d.factorCount) (hne : d.betweenPart s ≠ ∅) {x : List ℕ}
    (hx : x ∈ positions (keptShape (d.flags d.betweenFactors s))) :
    (d.pureEffect (d.statistics values) s).get (x ++ [j]) =
      d.effectAt values j (d.betweenPart s) x := by
  have hcell := hd.mem_cellPositions hx
  have hB : d.betweenPart s ⊆ d.betweenFactors.toFinset := inter_subset_right
  rw [hd.get_pureEffect_eq hj hs hne (mem_positions.mp hx),
    cellPart_eq_sum_margin hB (length_of_mem_positions hcell), drift,
    ← sub_eq_add_neg, ← sum_sub_distrib]
  exact sum_congr rfl fun S _ => (mul_sub _ _ _).symm

/-! ## Hypothesis matrices -/

theorem cellWeight_eq_weightAt {s : Source} {x : List ℕ}
    (hx : x ∈ positions (keptShape (d.flags d.betweenFactors s))) :
    d.cellWeight values s x = d.weightAt values s x := by
  rw [cellWeight, weightAt, get_marginalCounts (mem_positions.mp hx), hd.flags_between]
  rfl

/-- An entry of a hypothesis matrix as a sum over all cells. -/
theorem get_hypothesis_eq_sum {s : Source} (hs : s.toFinset ⊆ range d.factorCount)
    (hne : d.betweenPart s ≠ ∅) {i : ℕ} (hi : i < values.cols) (hj : j < values.cols) :
    (d.hypothesis (d.statistics values) s).get i j = ∑ x ∈ d.cellPositions,
      d.effectAt values i (d.betweenPart s) x * d.effectAt values j (d.betweenPart s) x *
        d.weightAt values s x := by
  have hsum := hd.joined_mul_sum_margins (S := d.betweenPart s)
    (g := fun x => d.effectAt values i (d.betweenPart s) x *
      d.effectAt values j (d.betweenPart s) x * d.weightAt values s x) fun x hx y hy h => by
      rw [effectAt_eq_of_agree hx hy h, effectAt_eq_of_agree hx hy h, weightAt, weightAt,
        hd.marginSize_eq_of_agree hx hy h]
  rw [get_hypothesis hi hj, ← hsum, ← hd.flags_between, mul_sum]
  refine sum_congr rfl fun x hx => ?_
  rw [hd.get_pureEffect_eq_effectAt hi hs hne hx, hd.get_pureEffect_eq_effectAt hj hs hne hx,
    hd.cellWeight_eq_weightAt hx]
  ring

/-- The harmonic mean of the sizes of all cells. -/
theorem harmonicN_eq_div (values : Mat ℝ) : (d.statistics values).harmonicN =
    d.betweenCellCount / ∑ x ∈ d.cellPositions, ((d.statistics values).counts.get x)⁻¹ := by
  have hshape : (d.statistics values).counts.shape = d.betweenShape := rfl
  show harmonicMean (d.statistics values).counts.toList = _
  rw [Grid.toList_eq, hshape, harmonicMean_eq, List.map_map, List.length_map, length_multiIndices]
  · show _ /
      ((multiIndices d.betweenShape).map fun x => ((d.statistics values).counts.get x)⁻¹).sum = _
    rw [sum_map_multiIndices]
    rfl
  · intro n hn
    obtain ⟨x, hx, rfl⟩ := List.mem_map.mp hn
    exact (hd.get_counts_pos (mem_multiIndices.mp hx)).ne'

end Accepted

end Design

end SplitPlot
