import Mathlib
import SplitPlot.Proofs.Decomposition.ClosedForm

/-!
# Main effects as comparisons of models

A main effect asks whether the levels of one factor differ.  The model in which they do not is a
model of the cell means: it has any number for each cell, as long as the plain mean of these numbers
over the cells at a level of the factor is the same for every level (`Design.EqualLevelMeans`).
What the best model of this form leaves of the means of the subjects, beyond what the cell means
leave, is the sum of squares of the factor (`anova_main_effect_isLeast`).  The sizes of the cells
may be any.

## Where the weights come from

The weights of the sum of squares are harmonic means of cell sizes, and its centre is the mean of
the level means under these weights.  Both are forced on it.  Let `n` be the sizes of the cells, `m`
their means, `M` the level means, `h` the harmonic sizes and `G` the centre.  The multipliers of the
constraint are `h (M - G)`, which add up to nothing since `G` is the centre, and

* no admissible model leaves less than `∑ h (M - G)²`: the squares `n (m - μ)²` lie above twice the
  multiplier times `m - μ`, less the square of the multiplier over `n`, and over the cells that are
  alike `m - μ` has mean `M - κ` and `1 / n` has mean `1 / h`;
* the model that takes the multiplier over `n` away from each cell mean leaves just that, and its
  level means are all `G`.
-/

namespace SplitPlot

open Finset

/-! ## Means over the positions that agree, against a function of the agreement -/

section Alike

variable {extent : ℕ → ℕ} {factors : List ℕ} {S : Finset ℕ} {φ : List ℕ → ℝ}
  (hnodup : factors.Nodup)
  (hφ : ∀ x ∈ positions (factors.map extent), ∀ y ∈ positions (factors.map extent),
    Agree factors S x y → φ y = φ x)

include hnodup hφ

/-- A factor that looks at the kept axes only is taken out of a mean. -/
theorem lineKeep_mul_of_agree {x : List ℕ} (hx : x ∈ positions (factors.map extent))
    (g : List ℕ → ℝ) : lineKeep mean (flagged extent factors S) (fun y => φ y * g y) x =
      φ x * lineKeep mean (flagged extent factors S) g x := by
  have hout : ∑ y ∈ alike extent factors S x, φ y * g y =
      φ x * ∑ y ∈ alike extent factors S x, g y := by
    rw [mul_sum]
    exact sum_congr rfl fun y hy => by rw [hφ x hx y (mem_alike.mp hy).1 (mem_alike.mp hy).2]
  rw [lineKeep_mean_eq hnodup hx, lineKeep_mean_eq hnodup hx, hout, mul_div_assoc]

/-- Against such a factor a function adds up to the same as its means. -/
theorem sum_mul_lineKeep (hpos : ∀ f ∈ factors, 0 < extent f) (g : List ℕ → ℝ) :
    ∑ x ∈ positions (factors.map extent), φ x * lineKeep mean (flagged extent factors S) g x =
      ∑ x ∈ positions (factors.map extent), φ x * g x := by
  have haxes : ∀ a ∈ flagged extent factors S, 0 < a.1 := fun a ha => by
    obtain ⟨f, hf, rfl⟩ := List.mem_map.mp ha
    exact hpos f hf
  have hall := joined_mul_sum_lineKeep haxes fun x => φ x * g x
  rw [joined_mul_sum_keptShape hnodup hpos fun x hx y hy h =>
    (lineKeep_mean_eq_of_agree hnodup hx hy h _).symm, map_fst_flagged] at hall
  rw [← hall]
  exact sum_congr rfl fun x hx => (lineKeep_mul_of_agree hnodup hφ hx g).symm

end Alike

/-! ## The constrained minimum -/

section Minimum

variable {extent : ℕ → ℕ} {factors : List ℕ} {S : Finset ℕ} {n m : List ℕ → ℝ} {G : ℝ}

/-- The multiplier of the constraint at a cell. -/
noncomputable def multiplier (extent : ℕ → ℕ) (factors : List ℕ) (S : Finset ℕ) (n m : List ℕ → ℝ)
    (G : ℝ) (x : List ℕ) : ℝ :=
  lineKeep harmonicMean (flagged extent factors S) n x *
    (lineKeep mean (flagged extent factors S) m x - G)

variable (hnodup : factors.Nodup) (hpos : ∀ f ∈ factors, 0 < extent f)
  (hn : ∀ x ∈ positions (factors.map extent), 0 < n x)

include hnodup hn

theorem multiplier_eq_of_agree (x : List ℕ) (hx : x ∈ positions (factors.map extent)) (y : List ℕ)
    (hy : y ∈ positions (factors.map extent)) (h : Agree factors S x y) :
    multiplier extent factors S n m G y = multiplier extent factors S n m G x := by
  rw [multiplier, multiplier, lineKeep_harmonicMean_eq_of_agree hnodup hx hy h hn,
    lineKeep_mean_eq_of_agree hnodup hx hy h]

/-- The mean of the multiplier over the sizes. -/
theorem lineKeep_multiplier_div {x : List ℕ} (hx : x ∈ positions (factors.map extent)) :
    lineKeep mean (flagged extent factors S)
        (fun y => multiplier extent factors S n m G y * (n y)⁻¹) x =
      lineKeep mean (flagged extent factors S) m x - G := by
  rw [lineKeep_mul_of_agree hnodup (multiplier_eq_of_agree hnodup hn) hx,
    ← inv_lineKeep_harmonicMean hx hn, multiplier, mul_comm (lineKeep harmonicMean _ _ _),
    mul_inv_cancel_right₀ (lineKeep_harmonicMean_pos hx hn).ne']

include hpos

/-- The squares of the multipliers over the sizes. -/
theorem sum_sq_multiplier :
    ∑ x ∈ positions (factors.map extent), multiplier extent factors S n m G x ^ 2 * (n x)⁻¹ =
      ∑ x ∈ positions (factors.map extent), lineKeep harmonicMean (flagged extent factors S) n x *
        (lineKeep mean (flagged extent factors S) m x - G) ^ 2 := by
  have hsq : ∀ x ∈ positions (factors.map extent),
      multiplier extent factors S n m G x ^ 2 * (n x)⁻¹ = multiplier extent factors S n m G x *
        (multiplier extent factors S n m G x * (n x)⁻¹) := fun x _ => by ring
  rw [sum_congr rfl hsq, ← sum_mul_lineKeep hnodup (multiplier_eq_of_agree hnodup hn) hpos]
  refine sum_congr rfl fun x hx => ?_
  rw [lineKeep_multiplier_div hnodup hn hx, multiplier]
  ring

/-- The least that a model with equal means over the cells that are alike leaves of given means. -/
theorem isLeast_sum_sq (hG : ∑ x ∈ positions (factors.map extent),
      multiplier extent factors S n m G x = 0) :
    IsLeast {e | ∃ μ : List ℕ → ℝ,
        (∃ κ, ∀ x ∈ positions (factors.map extent),
          lineKeep mean (flagged extent factors S) μ x = κ) ∧
        ∑ x ∈ positions (factors.map extent), n x * (m x - μ x) ^ 2 = e}
      (∑ x ∈ positions (factors.map extent), lineKeep harmonicMean (flagged extent factors S) n x *
        (lineKeep mean (flagged extent factors S) m x - G) ^ 2) := by
  have hagree := multiplier_eq_of_agree (S := S) (m := m) (G := G) hnodup hn
  rw [← sum_sq_multiplier hnodup hpos hn]
  constructor
  · refine ⟨fun x => m x - multiplier extent factors S n m G x * (n x)⁻¹, ⟨G, fun x hx => ?_⟩,
      sum_congr rfl fun x hx => ?_⟩
    · have hsub := (isLinearMap_lineKeep (flagged extent factors S) x).map_sub m
        fun y => multiplier extent factors S n m G y * (n y)⁻¹
      exact hsub.trans (by rw [lineKeep_multiplier_div hnodup hn hx, sub_sub_cancel])
    · have hne := (hn x hx).ne'
      field_simp
      ring
  · rintro _ ⟨μ, ⟨κ, hκ⟩, rfl⟩
    -- against the multipliers the model is as good as nothing, and the means are the level means
    have hmodel : ∑ x ∈ positions (factors.map extent), multiplier extent factors S n m G x * μ x =
        0 := by
      rw [← sum_mul_lineKeep hnodup hagree hpos, sum_congr rfl fun x hx => by rw [hκ x hx],
        ← sum_mul, hG, zero_mul]
    have hmeans :
        ∑ x ∈ positions (factors.map extent), multiplier extent factors S n m G x * m x =
          ∑ x ∈ positions (factors.map extent),
            multiplier extent factors S n m G x ^ 2 * (n x)⁻¹ := by
      have hcentre : ∀ x ∈ positions (factors.map extent), multiplier extent factors S n m G x *
          lineKeep mean (flagged extent factors S) m x =
            lineKeep harmonicMean (flagged extent factors S) n x *
              (lineKeep mean (flagged extent factors S) m x - G) ^ 2 +
            multiplier extent factors S n m G x * G := fun x _ => by
        rw [multiplier]
        ring
      rw [sum_sq_multiplier hnodup hpos hn, ← sum_mul_lineKeep hnodup hagree hpos,
        sum_congr rfl hcentre, sum_add_distrib, ← sum_mul, hG, zero_mul, add_zero]
    have hsquare : ∀ x ∈ positions (factors.map extent),
        2 * (multiplier extent factors S n m G x * m x -
              multiplier extent factors S n m G x * μ x) -
            multiplier extent factors S n m G x ^ 2 * (n x)⁻¹ ≤
          n x * (m x - μ x) ^ 2 := fun x hx => by
      have hne := (hn x hx).ne'
      have hrest : n x * (m x - μ x) ^ 2 -
          (2 * (multiplier extent factors S n m G x * m x -
              multiplier extent factors S n m G x * μ x) -
            multiplier extent factors S n m G x ^ 2 * (n x)⁻¹) =
          (n x)⁻¹ * (n x * (m x - μ x) - multiplier extent factors S n m G x) ^ 2 := by
        field_simp
        ring
      rw [← sub_nonneg, hrest]
      exact mul_nonneg (inv_nonneg.mpr (hn x hx).le) (sq_nonneg _)
    have hsum := sum_le_sum hsquare
    rw [sum_sub_distrib, ← mul_sum, sum_sub_distrib, hmodel, hmeans] at hsum
    linarith

end Minimum

namespace Design

/-! ## Models of the cell means -/

section Definitions

variable (d : Design ℝ) (a : ℕ) (μ : List ℕ → ℝ)

/-- The cells between subjects at a level of a factor. -/
def cellsAt (l : ℕ) : Finset (List ℕ) :=
  d.cellPositions.filter fun x => levelAt d.betweenFactors x a = l

/-- The plain mean of a number for each cell over the cells at a level is the same for all
levels. -/
def EqualLevelMeans : Prop :=
  ∃ κ : ℝ, ∀ l < d.levelCount a, (∑ x ∈ d.cellsAt a l, μ x) / (d.cellsAt a l).card = κ

/-- The squares of the cell means of the subject means about a number for each cell, each counted
once for every subject of the cell. -/
noncomputable def cellModelSs : ℝ :=
  ∑ x ∈ d.cellPositions,
    d.meanStatistics.counts.get x * (d.meanStatistics.means.get (x ++ [0]) - μ x) ^ 2

/-- The squares of the subject means about the number of the cell in which the subject stands. -/
noncomputable def modelErrorSs : ℝ :=
  ∑ i ∈ range d.subjectCount,
    (d.subjectMean i - μ (unravel d.betweenShape (d.subjectCells.getD i 0))) ^ 2

end Definitions

variable {d : Design ℝ} {a : ℕ} {μ : List ℕ → ℝ}

/-- The cells at the level of a given one are those that are alike. -/
theorem cellsAt_levelAt (ha : a ∈ d.betweenFactors) (x : List ℕ) :
    d.cellsAt a (levelAt d.betweenFactors x a) = d.cellsAlike {a} x := by
  refine filter_congr fun y _ => ⟨fun h f _ hf => ?_, fun h => ?_⟩
  · rw [mem_singleton.mp hf, h]
  · exact (h a ha (mem_singleton_self a)).symm

namespace Accepted

variable (hd : d.Accepted)

include hd

/-- Every level of a factor is that of a cell. -/
theorem exists_levelAt_eq (ha : a ∈ d.betweenFactors) {l : ℕ} (hl : l < d.levelCount a) :
    ∃ x ∈ d.cellPositions, levelAt d.betweenFactors x a = l := by
  refine ⟨d.betweenFactors.map fun f => if f = a then l else 0, map_mem_positions fun f hf => ?_,
    ?_⟩
  · split
    · next h => rwa [h]
    · exact hd.levelCount_between_pos hf
  · rw [levelAt_map _ ha, if_pos rfl]

/-- Level means are the means over the cells that are alike. -/
theorem equalLevelMeans_iff (ha : a ∈ d.betweenFactors) : d.EqualLevelMeans a μ ↔
    ∃ κ, ∀ x ∈ d.cellPositions,
      lineKeep mean (flagged d.levelCount d.betweenFactors {a}) μ x = κ := by
  have hmean : ∀ x ∈ d.cellPositions,
      lineKeep mean (flagged d.levelCount d.betweenFactors {a}) μ x =
        (∑ y ∈ d.cellsAt a (levelAt d.betweenFactors x a), μ y) /
          (d.cellsAt a (levelAt d.betweenFactors x a)).card := fun x hx => by
    rw [cellsAt_levelAt ha, lineKeep_mean_eq (nodup_betweenFactors d.toCoding) hx, cellsAlike]
  refine exists_congr fun κ => ⟨fun h x hx => ?_, fun h l hl => ?_⟩
  · exact (hmean x hx).trans (h _ (levelAt_lt hx ha))
  · obtain ⟨x, hx, rfl⟩ := hd.exists_levelAt_eq ha hl
    exact (hmean x hx).symm.trans (h x hx)

/-- What a model leaves of the subject means is what the cell means leave of them and what the model
leaves of the cell means. -/
theorem modelErrorSs_eq (μ : List ℕ → ℝ) : d.modelErrorSs μ = d.meanErrorSs + d.cellModelSs μ := by
  have hrows : ∀ cell ∈ range d.betweenCellCount,
      ∑ i ∈ CellStatistics.rowsIn d.subjectCells cell,
          (d.subjectMean i - μ (unravel d.betweenShape (d.subjectCells.getD i 0))) ^ 2 =
        ∑ i ∈ CellStatistics.rowsIn d.subjectCells cell,
            (d.subjectMean i - d.meanOfCell (d.subjectCells.getD i 0)) ^ 2 +
          d.subjectCells.count cell *
            (d.meanOfCell cell - μ (unravel d.betweenShape cell)) ^ 2 := by
    intro cell hcell
    have hcount : (d.subjectCells.count cell : ℝ) ≠ 0 :=
      Nat.cast_ne_zero.mpr (List.count_pos_iff.mpr (hd.mem_subjectCells (mem_range.mp hcell))).ne'
    have hmean : ∑ i ∈ CellStatistics.rowsIn d.subjectCells cell, d.subjectMean i =
        d.subjectCells.count cell * d.meanOfCell cell := by
      rw [meanOfCell, mul_div_cancel₀ _ hcount]
    have hsplit : ∀ i ∈ CellStatistics.rowsIn d.subjectCells cell,
        (d.subjectMean i - μ (unravel d.betweenShape (d.subjectCells.getD i 0))) ^ 2 =
          (d.subjectMean i - d.meanOfCell (d.subjectCells.getD i 0)) ^ 2 +
            (2 * (d.meanOfCell cell - μ (unravel d.betweenShape cell)) *
              (d.subjectMean i - d.meanOfCell cell) +
                (d.meanOfCell cell - μ (unravel d.betweenShape cell)) ^ 2) := by
      intro i hi
      rw [(CellStatistics.mem_rowsIn.mp hi).2]
      ring
    rw [sum_congr rfl hsplit, sum_add_distrib, sum_add_distrib, ← mul_sum, sum_sub_distrib, hmean,
      sum_const, sum_const, CellStatistics.card_rowsIn, nsmul_eq_mul, nsmul_eq_mul, sub_self,
      mul_zero, zero_add]
  have hcells : ∀ cell ∈ range d.betweenCellCount,
      d.subjectCells.count cell * (d.meanOfCell cell - μ (unravel d.betweenShape cell)) ^ 2 =
        d.meanStatistics.counts.get (unravel d.betweenShape cell) *
          (d.meanStatistics.means.get (unravel d.betweenShape cell ++ [0]) -
            μ (unravel d.betweenShape cell)) ^ 2 := by
    intro cell hcell
    have hlt := mem_range.mp hcell
    have hin := inBounds_unravel hlt
    rw [meanStatistics, statistics, CellStatistics.get_counts hin,
      CellStatistics.get_means hin Nat.one_pos, flatIndex_unravel hlt, ← scoreMatrix_empty,
      hd.cellMean_scoreMatrix_empty]
  rw [modelErrorSs, hd.sum_subjects, sum_congr rfl hrows, sum_add_distrib, hd.meanErrorSs_eq,
    residualSs, hd.sum_subjects, sum_congr rfl hcells]
  exact congrArg (_ + ·) (sum_range_unravel d.betweenShape fun x => d.meanStatistics.counts.get x *
    (d.meanStatistics.means.get (x ++ [0]) - μ x) ^ 2)

/-! ## The sum of squares of a factor -/

theorem cellPositions_nonempty : d.cellPositions.Nonempty := by
  rw [← card_pos, cellPositions, card_positions]
  exact hd.betweenCellCount_pos

theorem counts_meanStatistics_pos {x : List ℕ} (hx : x ∈ d.cellPositions) :
    0 < d.meanStatistics.counts.get x := hd.get_counts_pos (mem_positions.mp hx)

/-- The multipliers of centred means add up to nothing. -/
theorem sum_multiplier (S : Finset ℕ) : ∑ x ∈ d.cellPositions,
    multiplier d.levelCount d.betweenFactors S d.meanStatistics.counts.get
      (d.cellMeanAt (subjectMeans d.scores) 0) (d.centre (subjectMeans d.scores) 0 S) x = 0 := by
  have hsize : ∑ x ∈ d.cellPositions, d.marginSize (subjectMeans d.scores) S x ≠ 0 :=
    (sum_pos (fun _ hx => hd.marginSize_pos S hx) hd.cellPositions_nonempty).ne'
  have hterm : ∀ x ∈ d.cellPositions, multiplier d.levelCount d.betweenFactors S
      d.meanStatistics.counts.get (d.cellMeanAt (subjectMeans d.scores) 0)
        (d.centre (subjectMeans d.scores) 0 S) x =
      d.margin (subjectMeans d.scores) 0 S x * d.marginSize (subjectMeans d.scores) S x -
        d.centre (subjectMeans d.scores) 0 S * d.marginSize (subjectMeans d.scores) S x := by
    intro x _
    show d.marginSize _ S x * (d.margin _ 0 S x - _) = _
    ring
  rw [sum_congr rfl hterm, sum_sub_distrib, ← mul_sum, hd.centre_eq_div, div_mul_cancel₀ _ hsize,
    sub_self]

section MainEffect

variable (ha : a ∈ d.betweenFactors)

include ha

theorem toFinset_span_singleton : (Source.span [a]).toFinset = {a} := by
  rw [Source.toFinset_span, List.toFinset_cons, List.toFinset_nil, insert_empty_eq]
  intro f hf
  rw [List.mem_singleton.mp hf]
  exact (hd.lt_of_mem_betweenFactors ha).trans (by decide)

theorem span_singleton_mem_all : Source.span [a] ∈ Source.all d.factorCount := by
  rw [hd.mem_all_iff, hd.toFinset_span_singleton ha]
  refine ⟨?_, singleton_nonempty a⟩
  rw [singleton_subset_iff, mem_range]
  exact (Coding.mem_betweenFactors.mp ha).1

theorem betweenPart_span_singleton : d.betweenPart (.span [a]) = {a} := by
  rw [betweenPart, hd.toFinset_span_singleton ha, inter_eq_left, singleton_subset_iff]
  exact List.mem_toFinset.mpr ha

theorem kindOf_span_singleton : d.kindOf (.span [a]) = .between := by
  rw [hd.kindOf_eq_between_iff, hd.toFinset_span_singleton ha, disjoint_singleton_left]
  exact disjoint_left.mp (Coding.disjoint_factors d.toCoding) (List.mem_toFinset.mpr ha)

/-- The sum of squares of a factor between subjects, as squares of centred level means. -/
theorem get_hypothesis_main_effect (hfull : Source.span [a] ≠ d.fullSource) :
    (d.hypothesis d.meanStatistics (.span [a])).get 0 0 = ∑ x ∈ d.cellPositions,
      d.marginSize (subjectMeans d.scores) {a} x *
        (d.margin (subjectMeans d.scores) 0 {a} x -
          d.centre (subjectMeans d.scores) 0 {a}) ^ 2 := by
  have hpart := hd.betweenPart_span_singleton ha
  have hsub := (hd.mem_all_iff.mp (hd.span_singleton_mem_all ha)).1
  have hne : d.betweenPart (.span [a]) ≠ ∅ := by
    rw [hpart]
    exact singleton_ne_empty a
  have hsubsets : ({a} : Finset ℕ).powerset.erase ∅ = {{a}} := by
    ext B
    rw [mem_erase, mem_powerset, subset_singleton_iff, mem_singleton]
    constructor
    · rintro ⟨hB, h⟩
      exact h.resolve_left hB
    · rintro rfl
      exact ⟨singleton_ne_empty a, .inr rfl⟩
  have hone : 0 < (subjectMeans d.scores).cols := Nat.one_pos
  refine (hd.get_hypothesis_eq_sum hsub hne hone hone).trans (sum_congr rfl fun x hx => ?_)
  rw [hpart, weightAt, if_neg hfull, hpart, hd.effectAt_eq_sum_erase hx, hsubsets, sum_singleton,
    ← margin_eq_plainMean hx, ← hd.centre_eq_plainCentre, Nat.sub_self, pow_zero, one_mul]
  ring

/-- What the best model with equal level means leaves of the cell means. -/
theorem isLeast_cellModelSs (hfull : Source.span [a] ≠ d.fullSource) :
    IsLeast {e | ∃ μ, d.EqualLevelMeans a μ ∧ d.cellModelSs μ = e}
      ((d.hypothesis d.meanStatistics (.span [a])).get 0 0) := by
  have hleast := isLeast_sum_sq (nodup_betweenFactors d.toCoding)
    (fun _ hf => hd.levelCount_between_pos hf)
    (fun _ hx => hd.counts_meanStatistics_pos hx)
    (hd.sum_multiplier {a})
  rw [hd.get_hypothesis_main_effect ha hfull]
  simp only [hd.equalLevelMeans_iff ha]
  exact hleast

end MainEffect

/-- Of all models the cell means leave least of the subject means. -/
theorem isLeast_meanErrorSs : IsLeast {e | ∃ μ, d.modelErrorSs μ = e} d.meanErrorSs := by
  constructor
  · refine ⟨fun x => d.meanStatistics.means.get (x ++ [0]), ?_⟩
    rw [hd.modelErrorSs_eq, cellModelSs]
    simp only [sub_self, zero_pow two_ne_zero, mul_zero, sum_const_zero, add_zero]
  · rintro _ ⟨μ, rfl⟩
    rw [hd.modelErrorSs_eq]
    refine le_add_of_nonneg_right (sum_nonneg fun x hx => mul_nonneg ?_ (sq_nonneg _))
    exact (hd.counts_meanStatistics_pos hx).le

end Accepted

end Design

open Design in
/-- **Main effects are comparisons of models.**  Let a table be a design with cells of any sizes,
and take a factor between subjects that is not the only factor of the design.  The sum of squares
that the run reports for it is the least that a model with equal level means leaves of the means of
the cells, each counted once for every subject of the cell.  So it is what the best such model
leaves of the means of the subjects beyond the error that the run reports, which is what the best
model of all leaves. -/
theorem anova_main_effect_isLeast {t : ObservationTable ℝ} (ht : t.Built) {settings : Settings}
    {d : Design ℝ} (h : ofTable t settings = .ok d) {a : ℕ} (ha : a ∈ d.betweenFactors)
    (hfull : Source.span [a] ≠ d.fullSource) :
    ∃ table, anova t settings = .ok table ∧
      table.results.map (·.source) = Source.all d.factorCount ∧
      ∃ r ∈ table.results, r.source = .span [a] ∧ r.kind = .between ∧
        IsLeast {e | ∃ μ, d.EqualLevelMeans a μ ∧ d.cellModelSs μ = e} r.test.ss ∧
        IsLeast {e | ∃ μ, d.EqualLevelMeans a μ ∧ d.modelErrorSs μ = e}
          (r.test.errorSs + r.test.ss) ∧
        IsLeast {e | ∃ μ, d.modelErrorSs μ = e} r.test.errorSs := by
  have hd := accepted_of_ofTable ht h
  have hkind := hd.kindOf_span_singleton ha
  have hleast := hd.isLeast_cellModelSs ha hfull
  refine ⟨_, anova_eq_ok ht h, ?_, _, List.mem_map_of_mem (hd.span_singleton_mem_all ha),
    source_resultOf settings _, (kind_resultOf settings _).trans hkind, ?_⟩
  · rw [List.map_map]
    exact (List.map_congr_left fun s _ => source_resultOf settings s).trans (List.map_id _)
  rw [test_between settings hkind, Significance.ss_univariate, Significance.errorSs_univariate]
  refine ⟨hleast, ?_, hd.isLeast_meanErrorSs⟩
  obtain ⟨⟨μ, hμ, hss⟩, hlower⟩ := hleast
  refine ⟨⟨μ, hμ, by rw [hd.modelErrorSs_eq, hss]⟩, ?_⟩
  rintro _ ⟨ν, hν, rfl⟩
  rw [hd.modelErrorSs_eq]
  exact add_le_add_right (hlower ⟨ν, hν, rfl⟩) _

namespace Design

/-- The levels of the first factor have the means 0 and 35 and the harmonic sizes 1 and 4/3, so they
are centred on 20. -/
theorem ss_unequalDesign :
    (unequalDesign.hypothesis unequalDesign.meanStatistics (.span [0])).get 0 0 = 1400 := by
  have hd := accepted_unequalDesign
  have hmean := fun a b => cellMeanAt_unequalDesign Nat.one_pos
    (fun _ hk => get_subjectMeans_unequalDesign hk) (a := a) (b := b)
  have hcells : unequalDesign.cellPositions = positions [2, 2] := by decide
  have hcentre : unequalDesign.centre (subjectMeans unequalDesign.scores) 0 {0} = 20 := by
    rw [centre, flagged_unequalDesign]
    simp [keptShape, sum_positions_cons, lineKeep, List.range_succ, hmean, get_counts_unequalDesign,
      mean_eq, harmonicMean_eq, sum_range_succ]
    norm_num
  rw [hd.get_hypothesis_main_effect (by decide) (by decide), hcells, hcentre]
  simp [margin, marginSize, flagged_unequalDesign, sum_positions_cons, lineKeep, List.range_succ,
    hmean, get_counts_unequalDesign, mean_eq, harmonicMean_eq, sum_range_succ]
  norm_num

/-- The first factor of the cells of different sizes. -/
theorem isLeast_unequalCells : unequalCells.Built ∧ ofTable unequalCells {} = .ok unequalDesign ∧
    0 ∈ unequalDesign.betweenFactors ∧ Source.span [0] ≠ unequalDesign.fullSource ∧
    IsLeast {e | ∃ μ, unequalDesign.EqualLevelMeans 0 μ ∧ unequalDesign.cellModelSs μ = e} 1400 ∧
    ∃ table, anova unequalCells {} = .ok table ∧
      ∃ r ∈ table.results, r.source = .span [0] ∧ r.test.ss = 1400 := by
  have hfactor : 0 ∈ unequalDesign.betweenFactors := by decide
  have hfull : Source.span [0] ≠ unequalDesign.fullSource := by decide
  obtain ⟨table, htable, -, r, hr, hsource, -, hleast, -⟩ :=
    anova_main_effect_isLeast built_unequalCells ofTable_unequalCells hfactor hfull
  have hss : r.test.ss = 1400 := by
    rw [← ss_unequalDesign]
    exact hleast.unique (accepted_unequalDesign.isLeast_cellModelSs hfactor hfull)
  exact ⟨built_unequalCells, ofTable_unequalCells, hfactor, hfull, hss ▸ hleast, table, htable, r,
    hr, hsource, hss⟩

end Design

end SplitPlot
