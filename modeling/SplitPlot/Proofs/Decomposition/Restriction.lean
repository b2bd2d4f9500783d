import Mathlib
import SplitPlot.Proofs.Decomposition.Cells
import SplitPlot.Proofs.Decomposition.Lines

/-!
# What restricting the cell means computes

The tables that lead to an effect are read here at a position, in exact arithmetic: the marginal
means and counts, their weighted mean, the effect of a source, and the diagonal of its hypothesis
matrix.  Each becomes an expression in the cell means and the cell counts of a design, with sums
over positions.

Nothing is assumed about the counts.  The effect is still the centred mean less the effects of the
sub-sources (`get_pureEffect`); that it is the part of the means that belongs to the factors of the
source needs cells of one size, and is proved elsewhere.

## Stretched readings

A sub-source has fewer axes of full length, and its effect is read at the position in which the
level of every axis of length one is set to zero (`squash`).  A part of a function does not look at
the level of an axis that is not flagged, so it does not notice (`pureLine_squash`).
-/

namespace SplitPlot

open Finset

/-! ## Stretched readings -/

/-- The position with level zero along each axis of length one. -/
def squash (shape index : List ℕ) : List ℕ :=
  (shape.zip index).map fun e => if e.1 = 1 then 0 else e.2

theorem Grid.getStretched_append {g : Grid ℝ} {shape : List ℕ} {n : ℕ}
    (hshape : g.shape = shape ++ [n]) {index : List ℕ} (hlen : index.length = shape.length) {j : ℕ}
    (hj : j < n) : g.getStretched (index ++ [j]) = g.get (squash shape index ++ [j]) := by
  have hlast : (if n = 1 then 0 else j) = j := by
    split
    · omega
    · rfl
  have haxes : (index ++ [j]).length - g.axes = 0 := by
    rw [Grid.axes, hshape, List.length_append, List.length_append, hlen]
    exact Nat.sub_self _
  rw [Grid.getStretched, haxes, List.drop_zero, hshape, List.zip_append hlen.symm, List.map_append,
    squash, List.zip_cons_cons, List.map_cons, hlast]
  rfl

/-- Along axes of length one only level zero is left. -/
theorem inBounds_squash_map_false : ∀ {shape index : List ℕ}, index.length = shape.length →
    InBounds (squash (keptShape (shape.map fun n => (n, false))) index)
      (keptShape (shape.map fun n => (n, false)))
  | [], [], _ => trivial
  | _ :: _, _ :: _, h => ⟨Nat.one_pos, inBounds_squash_map_false (Nat.succ.inj h)⟩

section Squash

variable {extent : ℕ → ℕ} {A B : Finset ℕ}

theorem inBounds_squash (hBA : B ⊆ A) : ∀ {factors index : List ℕ},
    InBounds index (keptShape (flagged extent factors A)) →
      InBounds (squash (keptShape (flagged extent factors B)) index)
        (keptShape (flagged extent factors B))
  | [], [], _ => trivial
  | f :: factors, i :: index, h => by
    by_cases hf : f ∈ B
    · rw [flagged_cons_of_mem extent (hBA hf)] at h
      rw [flagged_cons_of_mem extent hf]
      have hi : i < extent f := h.1
      refine ⟨?_, inBounds_squash hBA h.2⟩
      show (if extent f = 1 then 0 else i) < extent f
      split
      · omega
      · exact hi
    · have hrest : InBounds index (keptShape (flagged extent factors A)) := by
        by_cases hfA : f ∈ A
        · rw [flagged_cons_of_mem extent hfA] at h
          exact h.2
        · rw [flagged_cons_of_notMem extent hfA] at h
          exact h.2
      rw [flagged_cons_of_notMem extent hf]
      exact ⟨Nat.one_pos, inBounds_squash hBA hrest⟩

theorem pureLine_squash (hBA : B ⊆ A) : ∀ {factors index : List ℕ} (g : List ℕ → ℝ),
    InBounds index (keptShape (flagged extent factors A)) →
      pureLine (flagged extent factors B) g
          (squash (keptShape (flagged extent factors B)) index) =
        pureLine (flagged extent factors B) g index
  | [], [], _, _ => rfl
  | f :: factors, i :: index, g, h => by
    by_cases hf : f ∈ B
    · rw [flagged_cons_of_mem extent (hBA hf)] at h
      rw [flagged_cons_of_mem extent hf]
      have hi : (if extent f = 1 then 0 else i) = i := by
        have hlt : i < extent f := h.1
        split
        · omega
        · rfl
      show pureLine (flagged extent factors B) (fun x => g ((if extent f = 1 then 0 else i) :: x) -
        average (extent f) fun j => g (j :: x)) (squash _ index) = _
      rw [hi]
      exact pureLine_squash hBA _ h.2
    · have hrest : InBounds index (keptShape (flagged extent factors A)) := by
        by_cases hfA : f ∈ A
        · rw [flagged_cons_of_mem extent hfA] at h
          exact h.2
        · rw [flagged_cons_of_notMem extent hfA] at h
          exact h.2
      rw [flagged_cons_of_notMem extent hf]
      exact pureLine_squash hBA _ hrest

end Squash

/-! ## Marginal means and counts -/

/-- The sum over all axes of a table. -/
theorem lineKeep_total_map_false : ∀ {shape : List ℕ} (g : List ℕ → ℝ) {index : List ℕ},
    index.length = shape.length →
      lineKeep total (shape.map fun n => (n, false)) g index = ∑ x ∈ positions shape, g x
  | [], g, [], _ => by simp [lineKeep]
  | n :: shape, g, i :: index, hlen => by
    rw [List.map_cons, lineKeep, total_eq_sum, sum_map_range, sum_positions_cons]
    exact sum_congr rfl fun j _ =>
      lineKeep_total_map_false (fun x => g (j :: x)) (Nat.succ.inj hlen)

namespace Design

variable {d : Design ℝ} {values : Mat ℝ} {s : Source} {index : List ℕ} {j : ℕ}

theorem get_marginalMeans (hin : InBounds index (keptShape (d.flags d.betweenFactors s)))
    (hj : j < values.cols) :
    ((d.statistics values).marginalMeans (d.betweenAxes s)).get (index ++ [j]) =
      lineKeep mean (d.flags d.betweenFactors s)
        (fun x => (d.statistics values).means.get (x ++ [j])) index := by
  have hlen : index.length = (d.flags d.betweenFactors s).length :=
    hin.length_eq.trans (length_keptShape _)
  rw [CellStatistics.marginalMeans, otherAxes_statistics, Grid.meanKeep,
    Grid.get_reduceAllKeep mean (d.shape_means values s) (inBounds_concat hin hj),
    lineKeep_append mean _ _ hlen]

theorem shape_counts (values : Mat ℝ) (s : Source) : (d.statistics values).counts.shape =
    (d.flags d.betweenFactors s).map (·.1) ++ [] := by
  rw [Coding.map_fst_flags, List.append_nil]
  rfl

theorem get_marginalCounts (hin : InBounds index (keptShape (d.flags d.betweenFactors s))) :
    ((d.statistics values).marginalCounts (d.betweenAxes s)).get index =
      lineKeep harmonicMean (d.flags d.betweenFactors s)
        (d.statistics values).counts.get index := by
  rw [CellStatistics.marginalCounts, otherAxes_statistics, Grid.harmonicMeanKeep,
    Grid.get_reduceAllKeep harmonicMean (d.shape_counts values s) (by rwa [List.append_nil])]

theorem shape_marginalCounts (values : Mat ℝ) (s : Source) :
    ((d.statistics values).marginalCounts (d.betweenAxes s)).shape =
      keptShape (d.flags d.betweenFactors s) := by
  rw [CellStatistics.marginalCounts, otherAxes_statistics, Grid.harmonicMeanKeep,
    Grid.shape_reduceAllKeep harmonicMean (d.shape_counts values s), List.append_nil]

/-- The number of cells that share their levels of the factors of a source. -/
theorem multiplicity_eq (values : Mat ℝ) (s : Source) :
    (d.statistics values).multiplicity (d.betweenAxes s) =
      joined (d.flags d.betweenFactors s) := by
  have hprod : ∀ axes : List FlaggedAxis,
      ((unkept axes).map fun a => (((axes.map (·.1)).getD a 0 : ℕ) : ℝ)).prod = joined axes := by
    intro axes
    induction axes with
    | nil => simp
    | cons a axes ih =>
      obtain ⟨n, b⟩ := a
      have htail : ((unkept axes).map (· + 1)).map
          (fun a => (((((n, b) :: axes).map (·.1)).getD a 0 : ℕ) : ℝ)) =
            (unkept axes).map fun a => (((axes.map (·.1)).getD a 0 : ℕ) : ℝ) := by
        rw [List.map_map]
        rfl
      rw [unkept_cons, List.map_append, List.prod_append, htail, ih]
      cases b <;> simp
  have hextent : (d.statistics values).counts.extent =
      fun a => ((d.flags d.betweenFactors s).map (·.1)).getD a 0 := by
    ext a
    rw [Grid.extent, d.shape_counts values s, List.append_nil]
  rw [CellStatistics.multiplicity, product_eq_prod, otherAxes_statistics, hextent, ← hprod]

/-! ## The weighted mean -/

theorem sum_marginalCounts (values : Mat ℝ) (s : Source) :
    ((d.statistics values).marginalCounts (d.betweenAxes s)).sum =
      ∑ x ∈ positions (keptShape (d.flags d.betweenFactors s)),
        ((d.statistics values).marginalCounts (d.betweenAxes s)).get x := by
  rw [Grid.sum_eq, shape_marginalCounts]

/-- The weighted mean of the marginal means, read at any position of a source. -/
theorem getStretched_weightedMean
    (hin : InBounds index (keptShape (d.flags d.betweenFactors s))) (hj : j < values.cols)
    (hcounts : 0 < ∑ x ∈ positions (keptShape (d.flags d.betweenFactors s)),
      ((d.statistics values).marginalCounts (d.betweenAxes s)).get x) :
    ((d.statistics values).weightedMean (d.betweenAxes s)).getStretched (index ++ [j]) =
      (∑ x ∈ positions (keptShape (d.flags d.betweenFactors s)),
          ((d.statistics values).marginalMeans (d.betweenAxes s)).get (x ++ [j]) *
            ((d.statistics values).marginalCounts (d.betweenAxes s)).get x) /
        ∑ x ∈ positions (keptShape (d.flags d.betweenFactors s)),
          ((d.statistics values).marginalCounts (d.betweenAxes s)).get x := by
  set kept := keptShape (d.flags d.betweenFactors s) with hkept
  set means := (d.statistics values).marginalMeans (d.betweenAxes s)
  set counts := (d.statistics values).marginalCounts (d.betweenAxes s)
  -- every axis of the cells is summed over, so what is left has axes of length one
  let products : Grid ℝ := .ofFn means.shape fun x => means.get x * counts.get x.dropLast
  let ones : List FlaggedAxis := kept.map fun n => (n, false)
  have hones : ones.map (·.1) = kept := by simp [ones, Function.comp_def]
  have hshape : products.shape = ones.map (·.1) ++ [values.cols] :=
    (d.shape_centredMeans values s).trans (by rw [hones])
  have haxes : List.range (d.statistics values).betweenAxes = unkept ones := by
    rw [unkept_map_false, hkept, length_keptShape, Coding.length_flags]
    exact congrArg List.range (List.length_map _)
  have hsums : (products.sumKeep (unkept ones)).shape = keptShape ones ++ [values.cols] :=
    Grid.shape_reduceAllKeep total hshape
  have hmean : (d.statistics values).weightedMean (d.betweenAxes s) =
      Grid.ofFn (keptShape ones ++ [values.cols])
        fun x => (products.sumKeep (unkept ones)).get x / ∑ x ∈ positions kept, counts.get x := by
    rw [CellStatistics.weightedMean, haxes, sum_marginalCounts, if_pos hcounts, hsums]
  have hlen : index.length = (keptShape ones).length :=
    hin.length_eq.trans (by rw [length_keptShape ones, ← hones, List.length_map])
  have hsquash : InBounds (squash (keptShape ones) index) (keptShape ones) :=
    inBounds_squash_map_false hin.length_eq
  rw [hmean, Grid.getStretched_append (Grid.shape_ofFn _ _) hlen hj,
    Grid.get_ofFn _ (inBounds_concat hsquash hj), Grid.sumKeep,
    Grid.get_reduceAllKeep total hshape (inBounds_concat hsquash hj),
    lineKeep_append total _ _ (hsquash.length_eq.trans (length_keptShape _)),
    lineKeep_total_map_false _ (hsquash.length_eq.trans (by simp [ones]))]
  refine congrArg (· / _) (sum_congr rfl fun x hx => ?_)
  have hx' : InBounds (x ++ [j]) means.shape := by
    have h := inBounds_concat (mem_positions.mp hx) hj
    rwa [← hones, ← hshape] at h
  rw [Grid.get_ofFn _ hx', List.dropLast_concat]

/-! ## The effect of a source -/

theorem get_foldl_minus (effects : Source → Grid ℝ) (l : List Source) (g : Grid ℝ) {x : List ℕ}
    (hx : InBounds x g.shape) : (l.foldl (fun effect t => effect.minus (effects t)) g).get x =
      g.get x - (l.map fun t => (effects t).getStretched x).sum := by
  induction l generalizing g with
  | nil => simp
  | cons t l ih =>
    rw [List.foldl_cons, ih (g.minus (effects t)) hx, Grid.minus, Grid.get_ofFn _ hx, List.map_cons,
      List.sum_cons, sub_sub]

/-- The effect of a source: its marginal mean, less their weighted mean and the effects of its
sub-sources. -/
theorem get_pureEffect (hin : InBounds index (keptShape (d.flags d.betweenFactors s)))
    (hj : j < values.cols) :
    (d.pureEffect (d.statistics values) s).get (index ++ [j]) =
      lineKeep mean (d.flags d.betweenFactors s)
          (fun x => (d.statistics values).means.get (x ++ [j])) index -
        ((d.statistics values).weightedMean (d.betweenAxes s)).getStretched (index ++ [j]) -
        ((d.subSources s).map fun t => (d.pureEffect (d.statistics values) t).get
          (squash (keptShape (d.flags d.betweenFactors t)) index ++ [j])).sum := by
  have hin' : InBounds (index ++ [j])
      ((d.statistics values).centredMeans (d.betweenAxes s)).shape := by
    rw [shape_centredMeans]
    exact inBounds_concat hin hj
  have hstretched : ∀ t ∈ d.subSources s,
      (d.pureEffect (d.statistics values) t).getStretched (index ++ [j]) =
        (d.pureEffect (d.statistics values) t).get
          (squash (keptShape (d.flags d.betweenFactors t)) index ++ [j]) := fun t _ => by
    refine Grid.getStretched_append (d.shape_pureEffect values t) ?_ hj
    rw [hin.length_eq, length_keptShape, length_keptShape, Coding.length_flags, Coding.length_flags]
  rw [pureEffect_eq, get_foldl_minus _ _ _ hin', List.map_congr_left hstretched, ← get_marginalMeans
    hin hj]
  refine congrArg (· - _) ?_
  show (Grid.ofFn _ _).get _ = _
  exact Grid.get_ofFn _ hin'

/-! ## The hypothesis matrix -/

/-- The weight of a cell of a source in its hypothesis matrix, for each of the cells that it joins.
-/
noncomputable def cellWeight (d : Design ℝ) (values : Mat ℝ) (s : Source) (x : List ℕ) : ℝ :=
  if s = d.fullSource then (d.statistics values).harmonicN
  else ((d.statistics values).marginalCounts (d.betweenAxes s)).get x

theorem variableCount_statistics (values : Mat ℝ) :
    (d.statistics values).variableCount = values.cols := by
  show ((List.range values.cols).map _).length = _
  rw [List.length_map, List.length_range]

theorem shape_hypothesisWeights (values : Mat ℝ) (s : Source) (spansAll : Bool) :
    ((d.statistics values).hypothesisWeights (d.betweenAxes s) spansAll).shape =
      keptShape (d.flags d.betweenFactors s) := d.shape_marginalCounts values s

theorem get_hypothesisWeights (hin : InBounds index (keptShape (d.flags d.betweenFactors s))) :
    ((d.statistics values).hypothesisWeights (d.betweenAxes s) (s == d.fullSource)).get index =
      d.cellWeight values s index * joined (d.flags d.betweenFactors s) := by
  have hin' : InBounds index ((d.statistics values).marginalCounts (d.betweenAxes s)).shape := by
    rwa [shape_marginalCounts]
  rw [CellStatistics.hypothesisWeights, Grid.get_ofFn _ hin', multiplicity_eq, cellWeight]
  by_cases hs : s = d.fullSource
  · rw [if_pos hs, if_pos (beq_iff_eq.mpr hs)]
  · rw [if_neg hs, if_neg (mt beq_iff_eq.mp hs)]

/-- The hypothesis matrix adds up the products of the effect over the cells of the source. -/
theorem get_hypothesis {i : ℕ} (hi : i < values.cols) (hj : j < values.cols) :
    (d.hypothesis (d.statistics values) s).get i j =
      ∑ x ∈ positions (keptShape (d.flags d.betweenFactors s)),
        (d.pureEffect (d.statistics values) s).get (x ++ [i]) *
          (d.pureEffect (d.statistics values) s).get (x ++ [j]) *
            (d.cellWeight values s x * joined (d.flags d.betweenFactors s)) := by
  have hcount : (d.statistics values).variableCount = values.cols := variableCount_statistics values
  rw [hypothesis, CellStatistics.hypothesisMatrix, Mat.get_ofFn _ (hcount ▸ hi) (hcount ▸ hj),
    total_eq_sum, sum_map_multiIndices, shape_hypothesisWeights]
  exact sum_congr rfl fun x hx => by rw [get_hypothesisWeights (mem_positions.mp hx)]

end Design

end SplitPlot
