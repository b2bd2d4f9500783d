import Mathlib
import SplitPlot.Proofs.Decomposition.Balanced
import SplitPlot.Proofs.Decomposition.Scores
import SplitPlot.Proofs.Results

/-!
# Interactions of additive means

Several factors between subjects do not interact if their marginal means are a sum of functions of
which each leaves one of the factors out of account.  Then the part of the means that belongs to all
of them is zero (`Design.Accepted.cellPart_of_additive`), and one would expect an effect of zero.

What an analysis reports is the part plus the drift of the centres.  So the effect of factors that
do not interact is one number in all cells, the drift, and its sum of squares is the square of the
drift for each unit of weight (`anova_effect_of_additive`).  Both are zero exactly if the drift is.
Cells of one size have no drift.

In cells of different sizes there may be one.  `unequalCells` is a table with three cells of one
subject and one cell of two, whose means do not depend on the second factor at all.  Yet the
interaction of the two factors is reported as minus one in every cell, and the gains of the subjects
from the first measurement to the second show one as well (`effect_unequalCells`).
-/

namespace SplitPlot

open Finset

namespace Design

/-- The marginal means of a variable over the factors between subjects of a source are a sum of
functions of which each does not look at one of these factors. -/
def AdditiveMeans (d : Design ℝ) (c : CellStatistics ℝ) (s : Source) (j : ℕ) : Prop :=
  ∃ parts : List (ℕ × (List ℕ → ℝ)),
    (∀ p ∈ parts, p.1 ∈ d.betweenAxes s ∧
      IgnoresAxis (keptShape (d.flags d.betweenFactors s)) p.1 p.2) ∧
    ∀ x ∈ positions (keptShape (d.flags d.betweenFactors s)),
      (c.marginalMeans (d.betweenAxes s)).get (x ++ [j]) = (parts.map fun p => p.2 x).sum

/-- The axes of a source are flagged. -/
theorem getElem?_keptAxes_flags {K : Type} (d : Design K) {s : Source} {axis : ℕ}
    (h : axis ∈ d.betweenAxes s) :
    ∃ n, (keptAxes (d.flags d.betweenFactors s))[axis]? = some (n, true) := by
  obtain ⟨n, hn⟩ := d.getElem?_flags h
  exact ⟨n, by rw [keptAxes, List.getElem?_map, hn]; rfl⟩

namespace Accepted

variable {d : Design ℝ} (hd : d.Accepted) {values : Mat ℝ} {j : ℕ} {s : Source}

include hd

/-! ## The effect -/

/-- Of additive means no part belongs to all factors. -/
theorem cellPart_of_additive (hj : j < values.cols) (h : d.AdditiveMeans (d.statistics values) s j)
    {x : List ℕ} (hx : InBounds x (keptShape (d.flags d.betweenFactors s))) :
    d.cellPart values j (d.betweenPart s) x = 0 := by
  obtain ⟨parts, hparts, hsum⟩ := h
  have hmeans : ∀ y, InBounds y ((keptAxes (d.flags d.betweenFactors s)).map (·.1)) →
      lineKeep mean (d.flags d.betweenFactors s) (d.cellMeanAt values j) y =
        (parts.map fun p => p.2 y).sum := fun y hy => by
    rw [map_fst_keptAxes] at hy
    rw [← hsum y (mem_positions.mpr hy), get_marginalMeans hy hj]
    rfl
  have hx' : InBounds x (keptShape (keptAxes (d.flags d.betweenFactors s))) := by
    rwa [keptShape_keptAxes]
  rw [cellPart, ← hd.flags_between, ← pureLine_lineKeep, pureLine_congr hmeans hx']
  refine pureLine_of_sum_ignores hx' fun p hp => ?_
  rw [map_fst_keptAxes]
  exact ⟨d.getElem?_keptAxes_flags (hparts p hp).1, (hparts p hp).2⟩

variable (hs : s ∈ Source.all d.factorCount) (hkind : d.kindOf s ≠ .within)

include hs hkind

/-- The effect of additive means is their drift. -/
theorem get_pureEffect_of_additive (hj : j < values.cols)
    (h : d.AdditiveMeans (d.statistics values) s j) {x : List ℕ}
    (hx : InBounds x (keptShape (d.flags d.betweenFactors s))) :
    (d.pureEffect (d.statistics values) s).get (x ++ [j]) =
      d.drift values j (d.betweenPart s) := by
  rw [hd.get_pureEffect_eq hj (hd.mem_all_iff.mp hs).1 (hd.betweenPart_ne_empty hs hkind) hx,
    hd.cellPart_of_additive hj h hx, zero_add]

/-! ## The hypothesis matrix -/

/-- The hypothesis matrix of additive means. -/
theorem get_hypothesis_of_additive {i : ℕ} (hi : i < values.cols) (hj : j < values.cols)
    (h : ∀ k < values.cols, d.AdditiveMeans (d.statistics values) s k) :
    (d.hypothesis (d.statistics values) s).get i j =
      d.drift values i (d.betweenPart s) * d.drift values j (d.betweenPart s) *
        ((d.statistics values).hypothesisWeights (d.betweenAxes s) (s == d.fullSource)).sum := by
  rw [get_hypothesis hi hj, Grid.sum_eq, shape_hypothesisWeights, mul_sum]
  refine sum_congr rfl fun x hx => ?_
  have hx := mem_positions.mp hx
  rw [hd.get_pureEffect_of_additive hs hkind hi (h i hi) hx,
    hd.get_pureEffect_of_additive hs hkind hj (h j hj) hx, get_hypothesisWeights hx]

/-- The sum of squares of additive means of the subjects. -/
theorem get_hypothesis_meanStatistics_of_additive (h : d.AdditiveMeans d.meanStatistics s 0) :
    (d.hypothesis d.meanStatistics s).get 0 0 =
      d.drift (subjectMeans d.scores) 0 (d.betweenPart s) ^ 2 *
        (d.meanStatistics.hypothesisWeights (d.betweenAxes s) (s == d.fullSource)).sum := by
  have hall : ∀ k < (subjectMeans d.scores).cols,
      d.AdditiveMeans (d.statistics (subjectMeans d.scores)) s k := fun k hk =>
    Nat.lt_one_iff.mp hk ▸ h
  rw [pow_two]
  exact hd.get_hypothesis_of_additive hs hkind Nat.one_pos Nat.one_pos hall

/-- The models of a source with factors of both kinds whose means are additive. -/
theorem get_mixedRestrictedError_of_additive
    (h : ∀ k < (d.scoresWithin s).size, d.AdditiveMeans (d.scoresWithin s).cells s k) {i : ℕ}
    (hi : i < (d.scoresWithin s).size) (hj : j < (d.scoresWithin s).size) :
    (d.mixedRestrictedError s).get i j = (d.fullError s).get i j +
      d.drift (d.scoresWithin s).columns i (d.betweenPart s) *
        d.drift (d.scoresWithin s).columns j (d.betweenPart s) *
          ((d.scoresWithin s).cells.hypothesisWeights (d.betweenAxes s)
            (s == d.fullSource)).sum := by
  have hentry : (d.mixedRestrictedError s).get i j = (d.fullError s).get i j +
      (d.hypothesis (d.scoresWithin s).cells s).get i j := Mat.get_add hi hj
  have hhypothesis : (d.hypothesis (d.scoresWithin s).cells s).get i j = _ :=
    hd.get_hypothesis_of_additive hs hkind hi hj h
  rw [hentry, hhypothesis]
  rfl

/-- Without drift the two models are the same. -/
theorem mixedRestrictedError_of_drift_eq_zero
    (h : ∀ k < (d.scoresWithin s).size, d.AdditiveMeans (d.scoresWithin s).cells s k)
    (hdrift : ∀ k < (d.scoresWithin s).size,
      d.drift (d.scoresWithin s).columns k (d.betweenPart s) = 0) :
    d.mixedRestrictedError s = d.fullError s := by
  have hrows : (d.mixedRestrictedError s).rows = (d.scoresWithin s).size := rfl
  have hcols : (d.mixedRestrictedError s).cols = (d.scoresWithin s).size := rfl
  refine Mat.ext_get (hrows.trans rfl) (hcols.trans rfl) fun i j hi hj => ?_
  rw [hrows] at hi
  rw [hcols] at hj
  refine (hd.get_mixedRestrictedError_of_additive hs hkind h hi hj).trans ?_
  rw [hdrift i hi, zero_mul, zero_mul, add_zero]

end Accepted

end Design

open Design in
/-- **Interactions of additive means.**  Let a table be a design with cells of any sizes, and take a
result for a source between subjects, or with factors of both kinds, whose marginal means are a sum
of functions of which each leaves a factor between subjects of the source out of account.  The
effect is the drift of the centres in every cell and for every variable.  The hypothesis matrix is
made of the products of the drifts, for each unit of a positive weight.  So for a source between
subjects the sum of squares is zero exactly if the drift is, and for one with factors of both kinds
it is zero if all drifts are.  In cells of one size they all are. -/
theorem anova_effect_of_additive {t : ObservationTable ℝ} (ht : t.Built) {settings : Settings}
    {d : Design ℝ} (h : ofTable t settings = .ok d) :
    ∃ table, anova t settings = .ok table ∧
      table.results.map (·.source) = Source.all d.factorCount ∧
      (∀ r ∈ table.results, r.kind = d.kindOf r.source) ∧
      (∀ r ∈ table.results, r.kind = .between → d.AdditiveMeans d.meanStatistics r.source 0 →
        let κ := d.drift (subjectMeans d.scores) 0 (d.betweenPart r.source)
        let w := (d.meanStatistics.hypothesisWeights (d.betweenAxes r.source)
          (r.source == d.fullSource)).sum
        (∀ x ∈ positions (keptShape (d.flags d.betweenFactors r.source)),
          r.effect.values.get (x ++ [0]) = κ) ∧
        0 < w ∧ r.test.ss = κ ^ 2 * w ∧ (r.test.ss = 0 ↔ κ = 0) ∧ ∀ m, d.Balanced m → κ = 0) ∧
      ∀ r ∈ table.results, r.kind = .mixed →
        (∀ j < (d.scoresWithin r.source).size,
          d.AdditiveMeans (d.scoresWithin r.source).cells r.source j) →
        let κ := fun j => d.drift (d.scoresWithin r.source).columns j (d.betweenPart r.source)
        let w := ((d.scoresWithin r.source).cells.hypothesisWeights (d.betweenAxes r.source)
          (r.source == d.fullSource)).sum
        (∀ x ∈ positions (keptShape (d.flags d.betweenFactors r.source)),
          ∀ j < (d.scoresWithin r.source).size, r.effect.values.get (x ++ [j]) = κ j) ∧
        0 < w ∧
        (∃ m, r.matrices = some m ∧ m.variableCount = (d.scoresWithin r.source).size ∧
          ∀ i < m.variableCount, ∀ j < m.variableCount,
            m.restricted.get i j = m.full.get i j + κ i * κ j * w) ∧
        ((∀ j < (d.scoresWithin r.source).size, κ j = 0) → r.test.ss = 0) ∧
        ∀ m, d.Balanced m → ∀ j, κ j = 0 := by
  have hd := accepted_of_ofTable ht h
  refine ⟨_, anova_eq_ok ht h, ?_, fun r hr => ?_, fun r hr hkind hadditive => ?_,
    fun r hr hkind hadditive => ?_⟩
  · rw [List.map_map]
    exact (List.map_congr_left fun s _ => source_resultOf settings s).trans (List.map_id _)
  · obtain ⟨s, -, rfl⟩ := List.mem_map.mp hr
    rw [kind_resultOf, source_resultOf]
  · obtain ⟨s, hs, rfl⟩ := List.mem_map.mp hr
    rw [kind_resultOf] at hkind
    rw [source_resultOf] at hadditive ⊢
    intro κ w
    have hbetween : d.kindOf s ≠ .within := by rw [hkind]; decide
    have hw : 0 < w := hd.sum_hypothesisWeights_pos _ s
    have hss : (d.resultOf settings s).test.ss = κ ^ 2 * w := by
      rw [test_between settings hkind, Significance.ss_univariate]
      exact hd.get_hypothesis_meanStatistics_of_additive hs hbetween hadditive
    refine ⟨fun x hx => ?_, hw, hss, ?_,
      fun m hm => hd.drift_balanced hm _ _ (hd.betweenPart_ne_empty hs hbetween)⟩
    · rw [resultOf, outcome_eq_between hkind]
      exact hd.get_pureEffect_of_additive hs hbetween Nat.one_pos hadditive (mem_positions.mp hx)
    · rw [hss, mul_eq_zero, or_iff_left hw.ne', sq_eq_zero_iff]
  · obtain ⟨s, hs, rfl⟩ := List.mem_map.mp hr
    rw [kind_resultOf] at hkind
    rw [source_resultOf] at hadditive ⊢
    intro κ w
    have hmixed : d.kindOf s ≠ .within := by rw [hkind]; decide
    refine ⟨fun x hx j hj => ?_, hd.sum_hypothesisWeights_pos _ s,
      ⟨_, matrices_mixed settings hkind, rfl, fun i hi j hj => ?_⟩, fun hdrift => ?_,
      fun m hm j => hd.drift_balanced hm _ j (hd.betweenPart_ne_empty hs hmixed)⟩
    · rw [resultOf, outcome_eq_mixed hkind]
      exact hd.get_pureEffect_of_additive hs hmixed hj (hadditive j hj) (mem_positions.mp hx)
    · exact hd.get_mixedRestrictedError_of_additive hs hmixed hadditive hi hj
    · have hmodels := hd.mixedRestrictedError_of_drift_eq_zero hs hmixed hadditive hdrift
      rw [test_mixed settings hkind, Significance.ss_multivariate]
      show (d.mixedRestrictedError s).sscpDet - (d.fullError s).sscpDet = 0
      rw [hmodels, sub_self]

namespace Design

/-! ## Cells of different sizes -/

/-- Five subjects in the four cells of two factors, one of which has two of them.  All start at
zero, and the gain of a subject, up to its second measurement, depends on the first factor alone on
average.
-/
noncomputable def unequalCells : ObservationTable ℝ :=
  wholeTable 3 [(1, [0, 0, 0], 0), (1, [0, 0, 1], 0), (2, [0, 1, 0], 0), (2, [0, 1, 1], 0),
    (3, [1, 0, 0], 0), (3, [1, 0, 1], 70), (4, [1, 1, 0], 0), (4, [1, 1, 1], 68),
    (5, [1, 1, 0], 0), (5, [1, 1, 1], 72)]

/-- The design of the five subjects. -/
noncomputable def unequalDesign : Design ℝ := (tableCoding unequalCells {}).toDesign

theorem built_unequalCells : unequalCells.Built := built_wholeTable (by decide) (by decide)

theorem ofTable_unequalCells : ofTable unequalCells {} = .ok unequalDesign := rfl

theorem accepted_unequalDesign : unequalDesign.Accepted :=
  accepted_of_ofTable built_unequalCells ofTable_unequalCells

/-- The scores at the second measurement are twice the means. -/
theorem score_unequalDesign {k : ℕ} (hk : k < 5) : unequalDesign.score k [0] = 0 ∧
    unequalDesign.score k [1] = [0, 0, 35, 34, 36].getD k 0 * 2 := by
  interval_cases k
  all_goals exact ⟨(mean_singleton _).trans (by simp), (mean_singleton _).trans (by norm_num)⟩

theorem get_subjectMeans_unequalDesign {k : ℕ} (hk : k < 5) :
    (subjectMeans unequalDesign.scores).get k 0 = [0, 0, 35, 34, 36].getD k 0 * 1 := by
  have hwithin : unequalDesign.withinShape = [2] := by decide
  have htwo : unequalDesign.withinCellCount = 2 := by decide
  have hsum : ∑ x ∈ positions [2], unequalDesign.score k x =
      unequalDesign.score k [0] + unequalDesign.score k [1] := by
    rw [sum_positions_cons, sum_range_succ, sum_range_one, positions_nil, sum_singleton,
      sum_singleton]
  obtain ⟨hfirst, hsecond⟩ := score_unequalDesign hk
  rw [accepted_unequalDesign.get_subjectMeans_accepted hk, hwithin, htwo, hsum, hfirst, hsecond,
    zero_add, Nat.cast_ofNat, mul_div_cancel_right₀ _ two_ne_zero, mul_one]

theorem get_columns_unequalDesign {k : ℕ} (hk : k < 5) :
    (unequalDesign.scoresWithin (.span [0, 1, 2])).columns.get k 0 =
      [0, 0, 35, 34, 36].getD k 0 * √2 := by
  have hsource : (Source.span [0, 1, 2]).intersection unequalDesign.withinMask = .span [2] := by
    decide
  have hflags :
      unequalDesign.flags unequalDesign.withinFactors (.span [2]) = [(2, true)] := by decide
  obtain ⟨hfirst, hsecond⟩ := score_unequalDesign hk
  rw [scoresWithin, hsource]
  refine (accepted_unequalDesign.get_contrastColumns_two hflags hk).trans ?_
  rw [hfirst, hsecond, sub_zero, mul_div_assoc, Real.div_sqrt]

/-! ### The cells -/

theorem flagged_unequalDesign (B : Finset ℕ) :
    flagged unequalDesign.levelCount unequalDesign.betweenFactors B =
      [(2, decide (0 ∈ B)), (2, decide (1 ∈ B))] := by
  have hfactors : unequalDesign.betweenFactors = [0, 1] := by decide
  rw [hfactors]
  rfl

section Cells

variable {a b : ℕ} (ha : a < 2) (hb : b < 2)

include ha hb

theorem inBounds_unequalDesign : InBounds [a, b] unequalDesign.betweenShape := by
  have hshape : unequalDesign.betweenShape = [2, 2] := by decide
  rw [hshape]
  exact ⟨ha, hb, trivial⟩

theorem rowsIn_unequalDesign : CellStatistics.rowsIn unequalDesign.subjectCells
    (flatIndex [a, b] unequalDesign.betweenShape) = if a * b = 1 then {3, 4} else {2 * a + b} := by
  interval_cases a <;> interval_cases b <;> decide

/-- The last cell has two subjects. -/
theorem count_subjectCells_unequalDesign :
    unequalDesign.subjectCells.count (flatIndex [a, b] unequalDesign.betweenShape) = 1 + a * b := by
  interval_cases a <;> interval_cases b <;> decide

theorem get_counts_unequalDesign (values : Mat ℝ) :
    (unequalDesign.statistics values).counts.get [a, b] = 1 + a * b := by
  rw [statistics, CellStatistics.get_counts (inBounds_unequalDesign ha hb),
    count_subjectCells_unequalDesign ha hb]
  push_cast
  rfl

end Cells

section Unequal

variable {values : Mat ℝ} {j : ℕ} {c : ℝ} (hj : j < values.cols)
  (hvalues : ∀ k < 5, values.get k j = [0, 0, 35, 34, 36].getD k 0 * c)

include hj hvalues

/-- The means do not depend on the level of the second factor. -/
theorem cellMeanAt_unequalDesign {a b : ℕ} (ha : a < 2) (hb : b < 2) :
    unequalDesign.cellMeanAt values j [a, b] = 35 * a * c := by
  have hmean : unequalDesign.cellMeanAt values j [a, b] =
      CellStatistics.cellMean values unequalDesign.subjectCells
        (flatIndex [a, b] unequalDesign.betweenShape) j :=
    CellStatistics.get_means (inBounds_unequalDesign ha hb) hj
  have hpair : values.get 3 j + values.get 4 j = 70 * c := by
    rw [hvalues 3 (by decide), hvalues 4 (by decide)]
    simp
    ring
  rw [hmean, CellStatistics.cellMean_eq, rowsIn_unequalDesign ha hb,
    count_subjectCells_unequalDesign ha hb]
  interval_cases a <;> interval_cases b
  · simp [hvalues]
  · simp [hvalues]
  · simp [hvalues]
  · simp [hpair]
    ring

/-- The centres of the factors and of their subsets do not cancel. -/
theorem drift_unequalDesign : unequalDesign.drift values j {0, 1} = -c := by
  have hsubsets : ({0, 1} : Finset ℕ).powerset = {∅, {0}, {1}, {0, 1}} := by decide
  have hmean := fun a b => cellMeanAt_unequalDesign hj hvalues (a := a) (b := b)
  have hempty : unequalDesign.centre values j ∅ = 35 / 2 * c := by
    rw [accepted_unequalDesign.centre_empty (x := [0, 0]) (by decide), cellPart,
      flagged_unequalDesign]
    simp [pureLine, average, sum_range_succ, hmean]
    ring
  have hfirst : unequalDesign.centre values j {0} = 20 * c := by
    rw [centre, flagged_unequalDesign]
    simp [keptShape, sum_positions_cons, lineKeep, List.range_succ, hmean, get_counts_unequalDesign,
      mean_eq, harmonicMean_eq, sum_range_succ]
    ring
  have hsecond : unequalDesign.centre values j {1} = 35 / 2 * c := by
    rw [centre, flagged_unequalDesign]
    simp [keptShape, sum_positions_cons, lineKeep, List.range_succ, hmean, get_counts_unequalDesign,
      mean_eq, harmonicMean_eq, sum_range_succ]
    ring
  have hboth : unequalDesign.centre values j {0, 1} = 21 * c := by
    rw [centre, flagged_unequalDesign]
    simp [keptShape, sum_positions_cons, lineKeep, hmean, get_counts_unequalDesign, sum_range_succ]
    ring
  rw [drift, hsubsets, sum_insert (by decide), sum_insert (by decide), sum_pair (by decide), hempty,
    hfirst, hsecond, hboth, card_empty, card_singleton, card_singleton, card_pair zero_ne_one]
  ring

/-- The means are a function of the first factor, which does not look at the second. -/
theorem additiveMeans_unequalDesign {s : Source}
    (hflags : unequalDesign.flags unequalDesign.betweenFactors s = [(2, true), (2, true)])
    (haxes : 1 ∈ unequalDesign.betweenAxes s) :
    unequalDesign.AdditiveMeans (unequalDesign.statistics values) s j := by
  refine ⟨[(1, fun x => 35 * x.getD 0 0 * c)], List.forall_mem_singleton.mpr ⟨haxes, ?_⟩,
    fun x hx => ?_⟩
  · rintro (_ | ⟨a, x⟩) i - -
    · rfl
    · rfl
  · have hin := mem_positions.mp hx
    rw [get_marginalMeans hin hj]
    rw [hflags] at hin ⊢
    obtain ⟨a, ha, b, hb, rfl⟩ := mem_positions_pair.mp (mem_positions.mpr hin)
    exact (cellMeanAt_unequalDesign hj hvalues ha hb).trans (by simp)

end Unequal

/-- The means of the subjects do not depend on the second factor. -/
theorem additiveMeans_subjectMeans :
    unequalDesign.AdditiveMeans unequalDesign.meanStatistics (.span [0, 1]) 0 :=
  additiveMeans_unequalDesign Nat.one_pos (fun _ hk => get_subjectMeans_unequalDesign hk)
    (by decide)
    (by decide)

/-- Nor do their gains. -/
theorem additiveMeans_gains : unequalDesign.AdditiveMeans
    (unequalDesign.scoresWithin (.span [0, 1, 2])).cells (.span [0, 1, 2]) 0 :=
  additiveMeans_unequalDesign Nat.one_pos (fun _ hk => get_columns_unequalDesign hk) (by decide)
    (by decide)

theorem drift_subjectMeans : unequalDesign.drift (subjectMeans unequalDesign.scores) 0
    (unequalDesign.betweenPart (.span [0, 1])) = -1 := by
  have hpart : unequalDesign.betweenPart (.span [0, 1]) = {0, 1} := by decide
  rw [hpart, drift_unequalDesign Nat.one_pos fun _ hk => get_subjectMeans_unequalDesign hk]

theorem drift_gains : unequalDesign.drift (unequalDesign.scoresWithin (.span [0, 1, 2])).columns 0
    (unequalDesign.betweenPart (.span [0, 1, 2])) = -√2 := by
  have hpart : unequalDesign.betweenPart (.span [0, 1, 2]) = {0, 1} := by decide
  rw [hpart, drift_unequalDesign Nat.one_pos fun _ hk => get_columns_unequalDesign hk]

/-- Both factors together are reported to have an effect, on the means of the subjects and on their
gains, though neither depends on the second factor. -/
theorem effect_unequalCells : unequalCells.Built ∧ ofTable unequalCells {} = .ok unequalDesign ∧
    unequalDesign.AdditiveMeans unequalDesign.meanStatistics (.span [0, 1]) 0 ∧
    (unequalDesign.scoresWithin (.span [0, 1, 2])).size = 1 ∧
    unequalDesign.AdditiveMeans (unequalDesign.scoresWithin (.span [0, 1, 2])).cells
      (.span [0, 1, 2]) 0 ∧
    ∃ table, anova unequalCells {} = .ok table ∧
      (∃ r ∈ table.results, r.source = .span [0, 1] ∧ r.kind = .between ∧
        (∀ a < 2, ∀ b < 2, r.effect.values.get [a, b, 0] = -1) ∧ 0 < r.test.ss) ∧
      ∃ r ∈ table.results, r.source = .span [0, 1, 2] ∧ r.kind = .mixed ∧
        ∀ a < 2, ∀ b < 2, r.effect.values.get [a, b, 0] = -√2 := by
  have hd := accepted_unequalDesign
  have hmeans : .span [0, 1] ∈ Source.all unequalDesign.factorCount := by decide
  have hgains : .span [0, 1, 2] ∈ Source.all unequalDesign.factorCount := by decide
  have hbetween : unequalDesign.kindOf (.span [0, 1]) = .between := by decide
  have hmixed : unequalDesign.kindOf (.span [0, 1, 2]) = .mixed := by decide
  have hin : ∀ a < 2, ∀ b < 2, InBounds [a, b] [2, 2] := fun a ha b hb => ⟨ha, hb, trivial⟩
  refine ⟨built_unequalCells, ofTable_unequalCells, additiveMeans_subjectMeans, rfl,
    additiveMeans_gains, _, anova_eq_ok built_unequalCells ofTable_unequalCells,
    ⟨_, List.mem_map_of_mem hmeans, source_resultOf {} _, (kind_resultOf {} _).trans hbetween,
      fun a ha b hb => ?_, ?_⟩,
    _, List.mem_map_of_mem hgains, source_resultOf {} _, (kind_resultOf {} _).trans hmixed,
      fun a ha b hb => ?_⟩
  · rw [resultOf, outcome_eq_between hbetween, ← drift_subjectMeans]
    exact hd.get_pureEffect_of_additive hmeans (by decide) Nat.one_pos additiveMeans_subjectMeans
      (hin a ha b hb)
  · have hw := hd.sum_hypothesisWeights_pos (subjectMeans unequalDesign.scores) (.span [0, 1])
    rw [test_between {} hbetween, Significance.ss_univariate,
      hd.get_hypothesis_meanStatistics_of_additive hmeans (by decide) additiveMeans_subjectMeans,
      drift_subjectMeans, neg_sq, one_pow, one_mul]
    exact hw
  · rw [resultOf, outcome_eq_mixed hmixed, ← drift_gains]
    exact hd.get_pureEffect_of_additive hgains (by decide) Nat.one_pos additiveMeans_gains
      (hin a ha b hb)

/-- The sum of squares of the means is the sum of their weights, and the two models of the gains
differ by twice the sum of theirs. -/
theorem anova_unequalCells : unequalCells.Built ∧ ofTable unequalCells {} = .ok unequalDesign ∧
    ∃ table, anova unequalCells {} = .ok table ∧
      (∃ r ∈ table.results, r.kind = .between ∧
        unequalDesign.AdditiveMeans unequalDesign.meanStatistics r.source 0 ∧ r.test.ss ≠ 0) ∧
      ∃ r ∈ table.results, r.kind = .mixed ∧
        (∀ j < (unequalDesign.scoresWithin r.source).size,
          unequalDesign.AdditiveMeans (unequalDesign.scoresWithin r.source).cells r.source j) ∧
        ∃ m, r.matrices = some m ∧ m.full.get 0 0 < m.restricted.get 0 0 := by
  obtain ⟨table, htable, hsources, hkinds, hbetween, hmixed⟩ :=
    anova_effect_of_additive built_unequalCells ofTable_unequalCells
  have hmem : ∀ s ∈ Source.all unequalDesign.factorCount, ∃ r ∈ table.results, r.source = s :=
    fun s hs => List.mem_map.mp (hsources ▸ hs)
  obtain ⟨r, hr, hsource⟩ := hmem (.span [0, 1]) (by decide)
  obtain ⟨r', hr', hsource'⟩ := hmem (.span [0, 1, 2]) (by decide)
  have hkind : r.kind = .between := by
    rw [hkinds r hr, hsource]
    decide
  have hkind' : r'.kind = .mixed := by
    rw [hkinds r' hr', hsource']
    decide
  have hmeans : unequalDesign.AdditiveMeans unequalDesign.meanStatistics r.source 0 :=
    hsource ▸ additiveMeans_subjectMeans
  have hgains : ∀ j < (unequalDesign.scoresWithin r'.source).size,
      unequalDesign.AdditiveMeans (unequalDesign.scoresWithin r'.source).cells r'.source j := by
    rw [hsource']
    exact fun j hj => Nat.lt_one_iff.mp hj ▸ additiveMeans_gains
  obtain ⟨-, -, -, hzero, -⟩ := hbetween r hr hkind hmeans
  obtain ⟨-, hw, ⟨m, hm, hsize, hmodels⟩, -⟩ := hmixed r' hr' hkind' hgains
  refine ⟨built_unequalCells, ofTable_unequalCells, table, htable, ⟨r, hr, hkind, hmeans, ?_⟩,
    r', hr', hkind', hgains, m, hm, ?_⟩
  · rw [Ne, hzero, hsource, drift_subjectMeans]
    norm_num
  · have hone : 0 < m.variableCount := by
      rw [hsize, hsource']
      decide
    have hentry := hmodels 0 hone 0 hone
    rw [hsource'] at hw hentry
    beta_reduce at hentry
    rw [drift_gains, neg_mul_neg, Real.mul_self_sqrt zero_le_two] at hentry
    rw [hentry]
    exact lt_add_of_pos_right _ (mul_pos two_pos hw)

end Design

end SplitPlot
