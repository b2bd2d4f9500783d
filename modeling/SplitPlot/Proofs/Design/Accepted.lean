import Mathlib
import SplitPlot.Analysis
import SplitPlot.Proofs.Design.Acceptance
import SplitPlot.Proofs.Source.Sets

/-!
# Accepted designs

`Design.Accepted` collects what holds of every design that a table can have (`accepted_of_ofTable`),
and the rest of the theory starts from it and not from a table.

The second half reads the sources of an accepted design as sets of its factors.  The source of all
factors within subjects is the set of those factors (`toFinset_withinMask`), and the sub-sources
whose effects are taken away from that of a source are its proper subsets with the same factors
within subjects and at least one factor between (`mem_subSources`).  In these terms the order of
evaluation needs no look at words any more.
-/

namespace SplitPlot

variable {K : Type} [Scalar K]

namespace Design

/-- What holds of every design of a table. -/
structure Accepted (d : Design K) : Prop where
  coherent : d.toCoding.Coherent
  complete : d.toCoding.IsComplete
  subjectCells_eq : d.subjectCells = d.toCoding.cells
  scores_eq : d.scores = d.toCoding.scoreTable
  one_le_factorCount : 1 ≤ d.factorCount
  factorCount_le : d.factorCount ≤ 16
  subjectCount_pos : 0 < d.subjectCount
  levelCount_pos : ∀ f < d.factorCount, 0 < d.levelCount f
  levelCount_le : ∀ f ∈ d.withinFactors, d.levelCount f ≤ 10

/-- The design of a built table is accepted in this sense. -/
theorem accepted_of_ofTable {t : ObservationTable K} (ht : t.Built) {settings : Settings}
    {d : Design K} (h : ofTable t settings = .ok d) : d.Accepted := by
  obtain ⟨hadm, hsmall, hcomplete⟩ := (ofTable_eq_ok_iff t settings d).mp h
  have hcoh := coherent_tableCoding ht hadm
  obtain ⟨hcomp, rfl⟩ := (hcoh.complete_eq_ok_iff d).mp hcomplete
  have hcount : (tableCoding t settings).toDesign.factorCount = t.factorCount :=
    factorCount_tableCoding hadm
  have hlevels : ∀ f < t.factorCount,
      (tableCoding t settings).levelCount f = (columnLevels t.averages f).length := fun f hf =>
    levelCount_rowCoding (hadm.length_names.symm ▸ hf)
  obtain ⟨q, hq⟩ := List.exists_mem_of_ne_nil _ hadm.rows_ne_nil
  obtain ⟨r, hr, -, -⟩ := keysWithin_rows q hq
  refine ⟨hcoh, hcomp, rfl, rfl, hcount ▸ hadm.one_le_factorCount, hcount ▸ hadm.factorCount_le,
    ?_, fun f hf => ?_, fun f hf => ?_⟩
  · have hlt : (code t.averages (settings.resolveNames t.factorCount) r).subject <
        (tableCoding t settings).subjectCount := subject_code_lt hr
    exact lt_of_le_of_lt (Nat.zero_le _) hlt
  · rw [hcount] at hf
    show 0 < (tableCoding t settings).levelCount f
    rw [hlevels f hf]
    exact lt_of_le_of_lt (Nat.zero_le _) (getD_levels_code_lt hr
      ((length_levels_averages ht r hr).trans hadm.length_names.symm)
      (hadm.length_names.symm ▸ hf))
  · obtain ⟨hf, hwithin⟩ := Coding.mem_withinFactors.mp hf
    rw [hcount] at hf
    show (tableCoding t settings).levelCount f ≤ 10
    rw [hlevels f hf]
    exact hsmall f hf ((within_factor_tableCoding hadm hf).symm.trans hwithin)

namespace Accepted

variable {d : Design K}

/-! ## Cells and scores -/

theorem length_subjectCells (hd : d.Accepted) : d.subjectCells.length = d.subjectCount := by
  rw [hd.subjectCells_eq, Coding.cells, List.length_map, List.length_range]

/-- Every subject stands in a cell between subjects. -/
theorem lt_of_mem_subjectCells (hd : d.Accepted) :
    ∀ cell ∈ d.subjectCells, cell < d.betweenCellCount := by
  intro cell h
  rw [hd.subjectCells_eq, Coding.Coherent.mem_cells] at h
  obtain ⟨s, hs, rfl⟩ := h
  exact flatIndex_lt (hd.coherent.inBounds_placement hs)

theorem getD_subjectCells_lt (hd : d.Accepted) {i : ℕ} (hi : i < d.subjectCount) :
    d.subjectCells.getD i 0 < d.betweenCellCount := by
  have hi' : i < d.subjectCells.length := hd.length_subjectCells.symm ▸ hi
  rw [List.getD_eq_getElem _ _ hi']
  exact hd.lt_of_mem_subjectCells _ (List.getElem_mem hi')

/-- Every cell between subjects has a subject. -/
theorem mem_subjectCells (hd : d.Accepted) {cell : ℕ} (h : cell < d.betweenCellCount) :
    cell ∈ d.subjectCells := by
  obtain ⟨o, ho, hlevels⟩ := hd.complete.populated _ (inBounds_unravel h)
  have hplace := hd.coherent.placed_iff.mpr hd.complete.placed o ho
  rw [hd.subjectCells_eq, Coding.Coherent.mem_cells]
  refine ⟨o.subject, hd.coherent.subject_lt o ho, ?_⟩
  rw [hplace, hlevels]
  exact flatIndex_unravel h

theorem shape_scores (hd : d.Accepted) : d.scores.shape = d.subjectCount :: d.withinShape := by
  rw [hd.scores_eq]
  rfl

theorem extent_scores_zero (hd : d.Accepted) : d.scores.extent 0 = d.subjectCount := by
  rw [Grid.extent, hd.shape_scores]
  rfl

/-! ## Sources -/

theorem levelCount_between_pos (hd : d.Accepted) {f : ℕ} (hf : f ∈ d.betweenFactors) :
    0 < d.levelCount f := hd.levelCount_pos f (Coding.mem_betweenFactors.mp hf).1

theorem levelCount_within (hd : d.Accepted) {f : ℕ} (hf : f ∈ d.withinFactors) :
    0 < d.levelCount f ∧ d.levelCount f ≤ maxWithinLevels :=
  ⟨hd.levelCount_pos f (Coding.mem_withinFactors.mp hf).1, hd.levelCount_le f hf⟩

/-- Without an empty axis a shape has cells. -/
theorem cellCount_pos : ∀ {shape : List ℕ}, (∀ n ∈ shape, 0 < n) → 0 < cellCount shape
  | [], _ => Nat.one_pos
  | _ :: _, h => by
    obtain ⟨hn, hshape⟩ := List.forall_mem_cons.mp h
    exact Nat.mul_pos hn (cellCount_pos hshape)

theorem withinCellCount_pos (hd : d.Accepted) : 0 < d.withinCellCount := by
  refine cellCount_pos fun n hn => ?_
  obtain ⟨f, hf, rfl⟩ := List.mem_map.mp hn
  exact (hd.levelCount_within hf).1

theorem betweenCellCount_pos (hd : d.Accepted) : 0 < d.betweenCellCount := by
  refine cellCount_pos fun n hn => ?_
  obtain ⟨f, hf, rfl⟩ := List.mem_map.mp hn
  exact hd.levelCount_between_pos hf

theorem lt_of_mem_betweenFactors (hd : d.Accepted) {f : ℕ} (hf : f ∈ d.betweenFactors) : f < 16 :=
  lt_of_lt_of_le (Coding.mem_betweenFactors.mp hf).1 hd.factorCount_le

theorem lt_of_mem_withinFactors (hd : d.Accepted) {f : ℕ} (hf : f ∈ d.withinFactors) : f < 16 :=
  lt_of_lt_of_le (Coding.mem_withinFactors.mp hf).1 hd.factorCount_le

/-- The source of all factors within subjects is the set of those factors. -/
theorem toFinset_withinMask (hd : d.Accepted) :
    d.withinMask.toFinset = d.withinFactors.toFinset :=
  Source.toFinset_span fun f hf => (hd.lt_of_mem_withinFactors hf).trans (by decide)

theorem mem_all_iff (hd : d.Accepted) {s : Source} : s ∈ Source.all d.factorCount ↔
    s.toFinset ⊆ Finset.range d.factorCount ∧ s.toFinset.Nonempty :=
  Source.mem_all (hd.factorCount_le.trans (by decide))

theorem enumerate_eq (hd : d.Accepted) :
    Source.enumerate d.factorCount = .ok (Source.all d.factorCount) :=
  if_pos hd.factorCount_le

/-- A factor of a design is seen in a source exactly when it belongs to its set. -/
theorem contains_iff (hd : d.Accepted) {s : Source} {f : ℕ} (hf : f < d.factorCount) :
    s.contains f = true ↔ f ∈ s.toFinset := by
  rw [Source.contains_iff]
  exact and_iff_right (lt_of_lt_of_le hf hd.factorCount_le)

theorem kindOf_eq_between_iff (hd : d.Accepted) {s : Source} :
    d.kindOf s = .between ↔ Disjoint s.toFinset d.withinFactors.toFinset := by
  rw [Coding.kindOf, Source.kind_eq_between_iff, hd.toFinset_withinMask]

theorem kindOf_eq_within_iff (hd : d.Accepted) {s : Source} :
    d.kindOf s = .within ↔ s.toFinset.Nonempty ∧ s.toFinset ⊆ d.withinFactors.toFinset := by
  rw [Coding.kindOf, Source.kind_eq_within_iff, hd.toFinset_withinMask]

theorem kindOf_eq_mixed_iff (hd : d.Accepted) {s : Source} :
    d.kindOf s = .mixed ↔ ¬ Disjoint s.toFinset d.withinFactors.toFinset ∧
      ¬ s.toFinset ⊆ d.withinFactors.toFinset := by
  rw [Coding.kindOf, Source.kind_eq_mixed_iff, hd.toFinset_withinMask]

/-- The sub-sources of a source are its proper subsets with the same factors within subjects and
at least one factor between. -/
theorem mem_subSources (hd : d.Accepted) {s t : Source} :
    t ∈ d.subSources s ↔ t.toFinset ⊂ s.toFinset ∧
      t.toFinset ∩ d.withinFactors.toFinset = s.toFinset ∩ d.withinFactors.toFinset ∧
      ¬ t.toFinset ⊆ d.withinFactors.toFinset := by
  have hempty : (t.difference d.withinMask).isEmpty = false ↔
      ¬ t.toFinset ⊆ d.withinFactors.toFinset := by
    rw [← Bool.not_eq_true, Source.isEmpty_iff, Source.toFinset_difference,
      hd.toFinset_withinMask, Finset.sdiff_eq_empty_iff_subset]
  have hinter : t.intersection d.withinMask = s.intersection d.withinMask ↔
      t.toFinset ∩ d.withinFactors.toFinset = s.toFinset ∩ d.withinFactors.toFinset := by
    rw [← Source.toFinset_injective.eq_iff, Source.toFinset_intersection,
      Source.toFinset_intersection, hd.toFinset_withinMask]
  rw [Design.subSources, List.mem_filter, Source.mem_properSubsets, Bool.and_eq_true, beq_iff_eq,
    Bool.not_eq_true', hinter, hempty]
  constructor
  · rintro ⟨⟨hsub, -⟩, hwithin, hne⟩
    exact ⟨hsub, hwithin, hne⟩
  · rintro ⟨hsub, hwithin, hne⟩
    refine ⟨⟨hsub, Finset.nonempty_iff_ne_empty.mpr fun h => hne ?_⟩, hwithin, hne⟩
    rw [h]
    exact Finset.empty_subset _

/-- A source within subjects has no sub-sources. -/
theorem subSources_eq_nil (hd : d.Accepted) {s : Source} (hs : d.kindOf s = .within) :
    d.subSources s = [] := by
  refine List.eq_nil_iff_forall_not_mem.mpr fun t ht => ?_
  obtain ⟨hsub, hinter, -⟩ := hd.mem_subSources.mp ht
  rw [Finset.inter_eq_left.mpr (hd.kindOf_eq_within_iff.mp hs).2] at hinter
  exact hsub.2 (hinter ▸ Finset.inter_subset_left)

end Accepted

end Design

end SplitPlot
