import Mathlib
import SplitPlot.Proofs.Decomposition.Margins
import SplitPlot.Proofs.Decomposition.Scores
import SplitPlot.Proofs.Design.Observations
import SplitPlot.Proofs.Relabelling.Axes
import SplitPlot.Proofs.Results

/-!
# Relabelled designs

The codes of a design are places in ascending lists.  Other names for the subjects or the levels put
them in another order, and with it change the number of every cell; other places of the factors
change the numbers of the axes.  A `Design.Relabelling` relates two designs that show the same
observations under different codes, with all values put on another scale.

The factors of each kind correspond to one another with their levels, so the relabelling is an axis
map on the cells between subjects and one on the cells within (`Relabelling.between`,
`Relabelling.within`).  A subject keeps its cell (`placement_subject`), and its score in a cell is
the rescaled score (`score_move`).  These two facts are all that the rest of the theory uses: the
sums over the rows of a cell, the numbers of rows and everything that is formed from them follow.
-/

namespace SplitPlot

open Finset

namespace Design

/-- A correspondence between the codes of two designs that carries the observations of one over to
the other, with the values rescaled. -/
structure Relabelling (d d' : Design ℝ) where
  /-- The number of a factor in the second design. -/
  factor : Equiv.Perm ℕ
  /-- The place of a subject in the second design. -/
  subject : ℕ → ℕ
  /-- The place of a level of a factor in the second design. -/
  level : ℕ → ℕ → ℕ
  /-- What values are multiplied by. -/
  scale : ℝ
  /-- What is added to values. -/
  shift : ℝ
  factorCount_eq : d'.factorCount = d.factorCount
  subjectCount_eq : d'.subjectCount = d.subjectCount
  factor_lt : ∀ f, factor f < d.factorCount ↔ f < d.factorCount
  within_eq : ∀ f < d.factorCount, (d'.factor (factor f)).within = (d.factor f).within
  levelCount_eq : ∀ f < d.factorCount, d'.levelCount (factor f) = d.levelCount f
  subject_lt : ∀ i < d.subjectCount, subject i < d.subjectCount
  subject_inj : ∀ i < d.subjectCount, ∀ j < d.subjectCount, subject i = subject j → i = j
  level_lt : ∀ f < d.factorCount, ∀ i < d.levelCount f, level f i < d.levelCount f
  level_inj : ∀ f < d.factorCount, ∀ i < d.levelCount f, ∀ j < d.levelCount f,
    level f i = level f j → i = j
  observation : ∀ o ∈ d.observations, ∃ o' ∈ d'.observations, o'.subject = subject o.subject ∧
    (∀ f < d.factorCount, o'.levels.getD (factor f) 0 = level f (o.levels.getD f 0)) ∧
    o'.value = scale * o.value + shift

namespace Relabelling

variable {d d' : Design ℝ} (r : Relabelling d d')

/-! ## The two axis maps -/

theorem factor_mem_betweenFactors (f : ℕ) :
    r.factor f ∈ d'.betweenFactors ↔ f ∈ d.betweenFactors := by
  rw [Coding.mem_betweenFactors, Coding.mem_betweenFactors, r.factorCount_eq, r.factor_lt]
  exact and_congr_right fun hf => by rw [r.within_eq f hf]

theorem factor_mem_withinFactors (f : ℕ) : r.factor f ∈ d'.withinFactors ↔ f ∈ d.withinFactors := by
  rw [Coding.mem_withinFactors, Coding.mem_withinFactors, r.factorCount_eq, r.factor_lt]
  exact and_congr_right fun hf => by rw [r.within_eq f hf]

/-- The correspondence of the cells between subjects. -/
def between : AxisMap d.levelCount d'.levelCount d.betweenFactors d'.betweenFactors where
  factor := r.factor
  level := r.level
  nodup := nodup_betweenFactors d.toCoding
  nodup' := nodup_betweenFactors d'.toCoding
  mem_iff := r.factor_mem_betweenFactors
  extent_eq f hf := r.levelCount_eq f (Coding.mem_betweenFactors.mp hf).1
  level_lt f hf := r.level_lt f (Coding.mem_betweenFactors.mp hf).1
  level_inj f hf := r.level_inj f (Coding.mem_betweenFactors.mp hf).1

/-- The correspondence of the cells within subjects. -/
def within : AxisMap d.levelCount d'.levelCount d.withinFactors d'.withinFactors where
  factor := r.factor
  level := r.level
  nodup := nodup_withinFactors d.toCoding
  nodup' := nodup_withinFactors d'.toCoding
  mem_iff := r.factor_mem_withinFactors
  extent_eq f hf := r.levelCount_eq f (Coding.mem_withinFactors.mp hf).1
  level_lt f hf := r.level_lt f (Coding.mem_withinFactors.mp hf).1
  level_inj f hf := r.level_inj f (Coding.mem_withinFactors.mp hf).1

include r in
theorem betweenCellCount_eq : d'.betweenCellCount = d.betweenCellCount := r.between.cellCount_move

section InPlace

variable (hfactor : r.factor = 1)

include hfactor

/-- Where the factors stay in place, their kinds and extents do too. -/
theorem within_eq_self {f : ℕ} (hf : f < d.factorCount) :
    (d'.factor f).within = (d.factor f).within := by
  rw [← r.within_eq f hf, hfactor]
  rfl

theorem levelCount_eq_self {f : ℕ} (hf : f < d.factorCount) : d'.levelCount f = d.levelCount f := by
  rw [← r.levelCount_eq f hf, hfactor]
  rfl

theorem betweenFactors_eq : d'.betweenFactors = d.betweenFactors := by
  rw [Coding.betweenFactors, Coding.betweenFactors, r.factorCount_eq]
  exact List.filter_congr fun f hf => by rw [r.within_eq_self hfactor (List.mem_range.mp hf)]

theorem withinFactors_eq : d'.withinFactors = d.withinFactors := by
  rw [Coding.withinFactors, Coding.withinFactors, r.factorCount_eq]
  exact List.filter_congr fun f hf => by rw [r.within_eq_self hfactor (List.mem_range.mp hf)]

/-- The axes of the cells of a source stay. -/
theorem flags_between_eq (s : Source) :
    d'.flags d'.betweenFactors s = d.flags d.betweenFactors s := by
  rw [Coding.flags, Coding.flags, r.betweenFactors_eq hfactor]
  refine List.map_congr_left fun f hf => ?_
  rw [r.levelCount_eq_self hfactor (Coding.mem_betweenFactors.mp hf).1]

theorem image_eq_self (S : Finset ℕ) : S.image r.factor = S := by
  rw [hfactor]
  exact image_id

end InPlace

/-- The levels of corresponding observations at factors of one kind. -/
theorem levelsAt_eq_move {factors factors' : List ℕ}
    {m : AxisMap d.levelCount d'.levelCount factors factors'} (hfactor : m.factor = r.factor)
    (hlevel : m.level = r.level) (hlt : ∀ f ∈ factors, f < d.factorCount)
    {o o' : CodedObservation ℝ}
    (ho : ∀ f < d.factorCount, o'.levels.getD (r.factor f) 0 = r.level f (o.levels.getD f 0)) :
    o'.levelsAt factors' = m.move (o.levelsAt factors) := by
  refine List.map_congr_left fun g hg => ?_
  have hf := m.symm_mem hg
  rw [CodedObservation.levelsAt, levelAt_map _ hf, hlevel, ← ho _ (hlt _ hf), ← hfactor,
    Equiv.apply_symm_apply]

/-! ## Subjects -/

/-- A sum over the subjects of the second design is one over those of the first. -/
theorem sum_subjects {M : Type} [AddCommMonoid M] (g : ℕ → M) :
    ∑ i ∈ range d'.subjectCount, g i = ∑ i ∈ range d.subjectCount, g (r.subject i) := by
  have hinj : Set.InjOn r.subject (range d.subjectCount) := fun i hi j hj =>
    r.subject_inj i (mem_range.mp hi) j (mem_range.mp hj)
  have himage : (range d.subjectCount).image r.subject = range d'.subjectCount := by
    refine eq_of_subset_of_card_le (image_subset_iff.mpr fun i hi => ?_) ?_
    · rw [mem_range, r.subjectCount_eq]
      exact r.subject_lt i (mem_range.mp hi)
    · rw [card_image_of_injOn hinj, card_range, card_range, r.subjectCount_eq]
  rw [← himage, sum_image hinj]

end Relabelling

/-- The number of the cell of a subject is that of its position. -/
theorem Accepted.getD_subjectCells {d : Design ℝ} (hd : d.Accepted) {i : ℕ}
    (hi : i < d.subjectCount) :
    d.subjectCells.getD i 0 = flatIndex (d.placement i) d.betweenShape := by
  rw [hd.subjectCells_eq, Coding.cells, List.getD_eq_getElem _ _ (by simpa using hi),
    List.getElem_map, List.getElem_range]

theorem Accepted.placement_mem {d : Design ℝ} (hd : d.Accepted) {i : ℕ} (hi : i < d.subjectCount) :
    d.placement i ∈ d.cellPositions := mem_positions.mpr (hd.coherent.inBounds_placement hi)

/-- The source of all factors is known by its set. -/
theorem Accepted.eq_fullSource_iff {d : Design ℝ} (hd : d.Accepted) {s : Source} :
    s = d.fullSource ↔ s.toFinset = range d.factorCount := by
  have hlt : ∀ f ∈ List.range d.factorCount, f < 31 := fun f hf =>
    (lt_of_lt_of_le (List.mem_range.mp hf) hd.factorCount_le).trans (by decide)
  rw [← Source.toFinset_injective.eq_iff, Coding.fullSource, Source.toFinset_span hlt,
    List.toFinset_range]

/-- The number of a cell of a design is the number of the subject's cell exactly if the subject is
placed there. -/
theorem Accepted.getD_subjectCells_eq_iff {d : Design ℝ} (hd : d.Accepted) {i : ℕ}
    (hi : i < d.subjectCount) {x : List ℕ} (hx : x ∈ d.cellPositions) :
    d.subjectCells.getD i 0 = flatIndex x d.betweenShape ↔ d.placement i = x := by
  rw [hd.getD_subjectCells hi]
  exact ⟨eq_of_flatIndex_eq (hd.coherent.inBounds_placement hi) (mem_positions.mp hx),
    congrArg (flatIndex · _)⟩

namespace Relabelling

variable {d d' : Design ℝ} (r : Relabelling d d') (hd : d.Accepted) (hd' : d'.Accepted)

include hd hd'

/-- A subject keeps its cell. -/
theorem placement_subject {i : ℕ} (hi : i < d.subjectCount) :
    d'.placement (r.subject i) = r.between.move (d.placement i) := by
  obtain ⟨o, ho, rfl, hplace⟩ := hd.coherent.exists_placement hi
  obtain ⟨o', ho', hsubject, hlevels, -⟩ := r.observation o ho
  rw [hplace, ← hsubject, hd'.placement_observation ho']
  exact r.levelsAt_eq_move rfl rfl (fun f hf => (Coding.mem_betweenFactors.mp hf).1) hlevels

/-- A sum over the rows of a cell is one over the rows of the corresponding cell. -/
theorem sum_rowsIn_move {x : List ℕ} (hx : x ∈ d.cellPositions) (g : ℕ → ℝ) :
    ∑ i ∈ CellStatistics.rowsIn d'.subjectCells
        (flatIndex (r.between.move x) d'.betweenShape), g i =
      ∑ i ∈ CellStatistics.rowsIn d.subjectCells (flatIndex x d.betweenShape),
        g (r.subject i) := by
  rw [CellStatistics.rowsIn, CellStatistics.rowsIn, sum_filter, sum_filter, hd.length_subjectCells,
    hd'.length_subjectCells, r.sum_subjects]
  refine sum_congr rfl fun i hi => if_congr ?_ rfl rfl
  have hi := mem_range.mp hi
  rw [hd'.getD_subjectCells_eq_iff (r.subjectCount_eq ▸ r.subject_lt i hi) (r.between.move_mem hx),
    hd.getD_subjectCells_eq_iff hi hx, r.placement_subject hd hd' hi]
  exact r.between.injOn_move.eq_iff (hd.placement_mem hi) hx

/-- Corresponding cells have the same number of rows. -/
theorem count_move {x : List ℕ} (hx : x ∈ d.cellPositions) :
    d'.subjectCells.count (flatIndex (r.between.move x) d'.betweenShape) =
      d.subjectCells.count (flatIndex x d.betweenShape) := by
  have hsum := r.sum_rowsIn_move hd hd' hx fun _ => 1
  rw [sum_const, sum_const, CellStatistics.card_rowsIn, CellStatistics.card_rowsIn] at hsum
  simpa using hsum

/-! ## Scores -/

/-- The score of a subject in a cell is the rescaled one. -/
theorem score_move {i : ℕ} (hi : i < d.subjectCount) {z : List ℕ}
    (hz : z ∈ positions (d.withinFactors.map d.levelCount)) :
    d'.score (r.subject i) (r.within.move z) = r.scale * d.score i z + r.shift := by
  obtain ⟨o, ho, rfl, rfl⟩ := hd.complete.observed i hi z (mem_positions.mp hz)
  obtain ⟨o', ho', hsubject, hlevels, hvalue⟩ := r.observation o ho
  have hmove : o'.levelsAt d'.withinFactors = r.within.move (o.levelsAt d.withinFactors) :=
    r.levelsAt_eq_move rfl rfl (fun f hf => (Coding.mem_withinFactors.mp hf).1) hlevels
  rw [Design.score, Design.score, ← hmove, ← hsubject, hd'.get_scores_observation ho',
    hd.get_scores_observation ho, hvalue]

/-! ## Sources -/

omit hd hd' in
theorem toFinset_betweenFactors :
    d'.betweenFactors.toFinset = d.betweenFactors.toFinset.image r.factor := by
  ext g
  rw [List.mem_toFinset, mem_image]
  constructor
  · intro hg
    exact ⟨_, List.mem_toFinset.mpr (r.between.symm_mem hg), r.factor.apply_symm_apply g⟩
  · rintro ⟨f, hf, rfl⟩
    exact (r.factor_mem_betweenFactors f).mpr (List.mem_toFinset.mp hf)

omit hd hd' in
theorem toFinset_withinFactors :
    d'.withinFactors.toFinset = d.withinFactors.toFinset.image r.factor := by
  ext g
  rw [List.mem_toFinset, mem_image]
  constructor
  · intro hg
    exact ⟨_, List.mem_toFinset.mpr (r.within.symm_mem hg), r.factor.apply_symm_apply g⟩
  · rintro ⟨f, hf, rfl⟩
    exact (r.factor_mem_withinFactors f).mpr (List.mem_toFinset.mp hf)

omit hd hd' in
theorem range_factorCount : range d'.factorCount = (range d.factorCount).image r.factor := by
  rw [← Coding.union_factors, ← Coding.union_factors, r.toFinset_betweenFactors,
    r.toFinset_withinFactors, image_union]

section Source

variable {s s' : Source} (hs' : s'.toFinset = s.toFinset.image r.factor)

include hs'

omit hd hd' in
theorem betweenPart_image : d'.betweenPart s' = (d.betweenPart s).image r.factor := by
  rw [betweenPart, betweenPart, hs', r.toFinset_betweenFactors, image_inter _ _ r.factor.injective]

omit hd hd' in
theorem withinPart_image : d'.withinPart s' = (d.withinPart s).image r.factor := by
  rw [withinPart, withinPart, hs', r.toFinset_withinFactors, image_inter _ _ r.factor.injective]

theorem kindOf_image : d'.kindOf s' = d.kindOf s := by
  have hinj := r.factor.injective
  cases h : d.kindOf s with
  | between =>
    rw [hd'.kindOf_eq_between_iff, hs', r.toFinset_withinFactors, disjoint_image hinj]
    exact hd.kindOf_eq_between_iff.mp h
  | within =>
    rw [hd'.kindOf_eq_within_iff, hs', r.toFinset_withinFactors, image_nonempty,
      image_subset_image_iff hinj]
    exact hd.kindOf_eq_within_iff.mp h
  | mixed =>
    rw [hd'.kindOf_eq_mixed_iff, hs', r.toFinset_withinFactors, disjoint_image hinj,
      image_subset_image_iff hinj]
    exact hd.kindOf_eq_mixed_iff.mp h

omit hd hd' in
theorem subset_range_image (hs : s.toFinset ⊆ range d.factorCount) :
    s'.toFinset ⊆ range d'.factorCount := by
  rw [hs', r.range_factorCount]
  exact image_subset_image hs

theorem mem_all_image (hs : s ∈ Source.all d.factorCount) : s' ∈ Source.all d'.factorCount := by
  obtain ⟨hsub, hne⟩ := hd.mem_all_iff.mp hs
  refine hd'.mem_all_iff.mpr ⟨r.subset_range_image hs' hsub, ?_⟩
  rw [hs']
  exact hne.image _

theorem eq_fullSource_iff : s' = d'.fullSource ↔ s = d.fullSource := by
  rw [hd'.eq_fullSource_iff, hd.eq_fullSource_iff, hs', r.range_factorCount,
    image_inj r.factor.injective]

omit hd' in
/-- The factors of the new source are the images of the factors. -/
theorem factors_perm (hs : s.toFinset ⊆ range d.factorCount) :
    (s.factors.map r.factor).Perm s'.factors := by
  have hlt : ∀ f ∈ s.toFinset, f < d.factorCount := fun f hf => mem_range.mp (hs hf)
  refine (List.perm_ext_iff_of_nodup (s.nodup_factors.map r.factor.injective)
    s'.nodup_factors).mpr fun g => ?_
  rw [Source.mem_factors, Source.contains_iff, hs', List.mem_map, mem_image]
  constructor
  · rintro ⟨f, hf, rfl⟩
    rw [Source.mem_factors, Source.contains_iff] at hf
    exact ⟨lt_of_lt_of_le ((r.factor_lt f).mpr (hlt f hf.2)) hd.factorCount_le, f, hf.2, rfl⟩
  · rintro ⟨-, f, hf, rfl⟩
    refine ⟨f, ?_, rfl⟩
    rw [Source.mem_factors, hd.contains_iff (hlt f hf)]
    exact hf

omit hd' in
/-- A source keeps its degrees of freedom. -/
theorem sourceDf_image (hs : s.toFinset ⊆ range d.factorCount) : d'.sourceDf s' = d.sourceDf s := by
  have hlevels : (s.factors.map r.factor).map d'.levelCount = s.factors.map d.levelCount := by
    rw [List.map_map]
    refine List.map_congr_left fun f hf => ?_
    rw [Source.mem_factors, Source.contains_iff] at hf
    exact r.levelCount_eq f (mem_range.mp (hs hf.2))
  rw [sourceDf, sourceDf, Significance.numeratorDf, Significance.numeratorDf, product_eq_prod,
    product_eq_prod, ← hlevels]
  exact (((r.factors_perm hd hs' hs).map _).map _).prod_eq.symm

end Source

end Relabelling

end Design

end SplitPlot
