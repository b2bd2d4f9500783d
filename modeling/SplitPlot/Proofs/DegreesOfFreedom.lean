import Mathlib
import SplitPlot.Proofs.OneContrast
import SplitPlot.Proofs.Totality

/-!
# Degrees of freedom

A source has as many degrees of freedom as there are combinations of one contrast from each of its
factors.  Over all sets of factors these products add up to the product of the numbers of levels:
each factor of a combination is either at its first level or takes part in the source
(`sum_prod_levels`).  The empty set has one degree of freedom, that of the grand mean, and it is not
a source.

So the results of an analysis divide the degrees of freedom of its design (`Design.DividesDf`).  The
sources between subjects have those of the cells between subjects, and with their error those of the
subjects; the sources within subjects have those of the cells within; a source with factors of both
kinds has one for each pair of a contrast between and a contrast score; and all sources together
have those of all combinations of levels (`anova_dividesDf`).

A factor with a single level is no exception.  It can only be a factor between subjects, every
source that contains it has no degrees of freedom, and it multiplies the numbers of cells by one.
-/

namespace SplitPlot

open Finset

/-- The products of numbers less one, over all sets but the empty one, add up to the product less
one. -/
theorem sum_prod_levels {A : Finset ℕ} {n : ℕ → ℕ} (hn : ∀ f ∈ A, 0 < n f) :
    ∑ S ∈ A.powerset.erase ∅, ((∏ f ∈ S, (n f - 1) : ℕ) : ℝ) = (∏ f ∈ A, n f : ℕ) - 1 := by
  have hprod : ∏ f ∈ A, (n f - 1 + 1) = ∏ f ∈ A, n f :=
    prod_congr rfl fun f hf => Nat.sub_add_cancel (hn f hf)
  have hall : ∑ S ∈ A.powerset, ∏ f ∈ S, (n f - 1) = ∏ f ∈ A, n f := by
    rw [← prod_add_one, hprod]
  -- the empty set has the product of no numbers
  rw [← add_sum_erase _ _ (empty_mem_powerset A), prod_empty] at hall
  rw [← hall, Nat.cast_add, Nat.cast_one, add_sub_cancel_left, Nat.cast_sum]

/-- The degrees of freedom of all results of one kind. -/
noncomputable def AnovaTable.dfOfKind (t : AnovaTable ℝ) (kind : Source.Kind) : ℝ :=
  ((t.results.filter (·.kind == kind)).map (·.test.dfNum)).sum

namespace Design

variable {d : Design ℝ}

/-- How the results of a design divide its degrees of freedom. -/
structure DividesDf (d : Design ℝ) (table : AnovaTable ℝ) : Prop where
  /-- The sources between subjects have one less than there are cells between subjects. -/
  between : table.dfOfKind .between = d.betweenCellCount - 1
  /-- They have one error, and with its degrees of freedom one less than there are subjects. -/
  error : ∀ r ∈ table.results, r.kind = .between →
    r.test.dfDen = table.subjectCount - d.betweenCellCount ∧
      table.dfOfKind .between + r.test.dfDen = table.subjectCount - 1
  /-- The sources within subjects have one less than there are cells within subjects. -/
  within : table.dfOfKind .within = d.withinCellCount - 1
  /-- Each of them has one for each of the contrast scores on which it is tested. -/
  scores : ∀ r ∈ table.results, r.kind = .within →
    ∃ D m, d.contrastScores r.source = .ok D ∧ r.matrices = some m ∧ m.variableCount = D.size ∧
      r.test.dfNum = D.size
  /-- A source with factors of both kinds has as many times those of its factors between subjects as
  there are contrast scores of its factors within. -/
  mixed : ∀ r ∈ table.results, r.kind = .mixed →
    ∃ D m, d.contrastScores (r.source.intersection d.withinMask) = .ok D ∧ r.matrices = some m ∧
      m.variableCount = D.size ∧ ∃ b ∈ table.results,
        b.source = r.source.difference d.withinMask ∧ b.kind = .between ∧
          r.test.dfNum = D.size * b.test.dfNum
  /-- All sources have one less than there are combinations of levels. -/
  all : (table.results.map (·.test.dfNum)).sum = (d.factors.map Factor.levelCount).prod - 1

/-- The numbers of levels, as a product over the factors by their numbers. -/
theorem prod_levelCount (d : Design ℝ) :
    (d.factors.map Factor.levelCount).prod = ∏ f ∈ range d.factorCount, d.levelCount f := by
  have hmap : d.factors.map Factor.levelCount = (List.range d.factorCount).map d.levelCount := by
    apply List.ext_getElem
    · rw [List.length_map, List.length_map, List.length_range]
      rfl
    · intro f hf _
      rw [List.length_map] at hf
      rw [List.getElem_map, List.getElem_map, List.getElem_range, Coding.levelCount, Coding.factor,
        List.getD_eq_getElem _ _ hf]
  rw [hmap, ← List.prod_toFinset _ List.nodup_range, List.toFinset_range]

namespace Accepted

variable (hd : d.Accepted)

include hd

/-- The degrees of freedom of a source, over the set of its factors. -/
theorem sourceDf_eq_prod {s : Source} (hs : s ∈ Source.all d.factorCount) :
    (d.sourceDf s : ℝ) = (∏ f ∈ s.toFinset, (d.levelCount f - 1) : ℕ) := by
  rw [sourceDf_eq, hd.prod_factors (hd.mem_all_iff.mp hs).1]

/-- The sources of some of the factors have one less degree of freedom than these factors have
combinations of levels. -/
theorem sum_sourceDf {A : Finset ℕ} (hA : A ⊆ range d.factorCount) {p : Source → Bool}
    (hp : ∀ s ∈ Source.all d.factorCount, p s = true ↔ s.toFinset ⊆ A) :
    (((Source.all d.factorCount).filter p).map fun s => (d.sourceDf s : ℝ)).sum =
      (∏ f ∈ A, d.levelCount f : ℕ) - 1 := by
  have hmap : ((Source.all d.factorCount).filter p).map (fun s => (d.sourceDf s : ℝ)) =
      ((Source.all d.factorCount).filter p).map fun s =>
        ((∏ f ∈ s.toFinset, (d.levelCount f - 1) : ℕ) : ℝ) :=
    List.map_congr_left fun s hs => hd.sourceDf_eq_prod (List.mem_filter.mp hs).1
  rw [hmap, hd.sum_filter_all hA hp fun S => ((∏ f ∈ S, (d.levelCount f - 1) : ℕ) : ℝ)]
  exact sum_prod_levels fun f hf => hd.levelCount_pos f (mem_range.mp (hA hf))

omit hd in
theorem dfOfKind_table (settings : Settings) (kind : Source.Kind) :
    (d.table settings).dfOfKind kind =
      (((Source.all d.factorCount).filter (d.kindOf · == kind)).map fun s =>
        (d.sourceDf s : ℝ)).sum := by
  rw [AnovaTable.dfOfKind, table, List.filter_map, List.map_map]
  have hfilter : ((·.kind == kind) ∘ d.resultOf settings : Source → Bool) = (d.kindOf · == kind) :=
    funext fun s => congrArg (· == kind) (kind_resultOf settings s)
  rw [hfilter]
  exact congrArg List.sum (List.map_congr_left fun s _ => dfNum_resultOf settings s)

theorem dfOfKind_between (settings : Settings) :
    (d.table settings).dfOfKind .between = d.betweenCellCount - 1 := by
  rw [dfOfKind_table, hd.sum_sourceDf d.betweenFactors_subset fun s hs => ?_,
    List.prod_toFinset _ (nodup_betweenFactors d.toCoding)]
  · rfl
  · rw [beq_iff_eq, hd.kindOf_eq_between_iff_subset hs]

theorem dfOfKind_within (settings : Settings) :
    (d.table settings).dfOfKind .within = d.withinCellCount - 1 := by
  rw [dfOfKind_table, hd.sum_sourceDf d.withinFactors_subset fun s hs => ?_,
    List.prod_toFinset _ (nodup_withinFactors d.toCoding)]
  · rfl
  · rw [beq_iff_eq, hd.kindOf_eq_within_iff, and_iff_right (hd.mem_all_iff.mp hs).2]

theorem sum_dfNum (settings : Settings) : ((d.table settings).results.map (·.test.dfNum)).sum =
    (d.factors.map Factor.levelCount).prod - 1 := by
  have hall := hd.sum_sourceDf (p := fun _ => true) subset_rfl fun s hs =>
    iff_of_true rfl (hd.mem_all_iff.mp hs).1
  rw [List.filter_true] at hall
  rw [prod_levelCount, ← hall, table, List.map_map]
  exact congrArg List.sum (List.map_congr_left fun s _ => dfNum_resultOf settings s)

section Mixed

variable {s : Source} (hs : s ∈ Source.all d.factorCount) (hkind : d.kindOf s = .mixed)

include hs

theorem toFinset_difference_withinMask :
    (s.difference d.withinMask).toFinset = d.betweenPart s := by
  have hsub := (hd.mem_all_iff.mp hs).1
  have hwithin : s.toFinset \ d.withinFactors.toFinset = s.toFinset \ d.withinPart s := by
    rw [withinPart, sdiff_inter_self_left]
  rw [Source.toFinset_difference, hd.toFinset_withinMask, hwithin,
    ← betweenPart_union_withinPart hsub]
  exact union_sdiff_cancel_right ((Coding.disjoint_factors d.toCoding).mono inter_subset_right
    inter_subset_right)

include hkind

/-- The factors between subjects of a source with factors of both kinds are a source. -/
theorem difference_mem_all : s.difference d.withinMask ∈ Source.all d.factorCount := by
  rw [hd.mem_all_iff, hd.toFinset_difference_withinMask hs]
  exact ⟨inter_subset_left.trans (hd.mem_all_iff.mp hs).1,
    nonempty_iff_ne_empty.mpr (hd.betweenPart_ne_empty hs (by rw [hkind]; decide))⟩

theorem kindOf_difference : d.kindOf (s.difference d.withinMask) = .between := by
  rw [hd.kindOf_eq_between_iff_subset (hd.difference_mem_all hs hkind),
    hd.toFinset_difference_withinMask hs]
  exact inter_subset_right

/-- The degrees of freedom of a source with factors of both kinds, from those of its factors
between. -/
theorem sourceDf_mixed_eq_mul : (d.sourceDf s : ℝ) =
    (d.contrastColumns (s.intersection d.withinMask)).cols *
      d.sourceDf (s.difference d.withinMask) := by
  rw [hd.sourceDf_mixed hs hkind, hd.sourceDf_eq_prod (hd.difference_mem_all hs hkind),
    hd.toFinset_difference_withinMask hs, Nat.cast_mul, mul_comm]

end Mixed

end Accepted

/-- **The degrees of freedom add up.**  The results of an analysis divide the degrees of freedom of
its design: those between subjects and their error, those within subjects, those of the sources of
both kinds, and those of all sources, whatever the numbers of levels and however many subjects there
are in a cell. -/
theorem anova_dividesDf {t : ObservationTable ℝ} (ht : t.Built) {settings : Settings} {d : Design ℝ}
    (h : ofTable t settings = .ok d) : ∃ table, anova t settings = .ok table ∧
      table.factors = d.factors ∧ table.subjectCount = d.subjectCount ∧
      table.results.map (·.source) = Source.all d.factorCount ∧
      (∀ r ∈ table.results, r.kind = d.kindOf r.source) ∧ d.DividesDf table := by
  have hd := accepted_of_ofTable ht h
  refine ⟨_, anova_eq_ok ht h, rfl, rfl, map_source_results settings _,
    kind_of_mem_results settings, hd.dfOfKind_between settings, ?_, hd.dfOfKind_within settings, ?_,
    ?_, hd.sum_dfNum settings⟩
  · intro r hr hkind
    obtain ⟨s, -, rfl⟩ := List.mem_map.mp hr
    rw [kind_resultOf] at hkind
    have hden : (d.resultOf settings s).test.dfDen = d.subjectCount - d.betweenCellCount := by
      rw [test_between settings hkind, Significance.dfDen_univariate]
      rfl
    have hsum := hd.dfOfKind_between settings
    refine ⟨hden, ?_⟩
    rw [hden]
    exact (congrArg (· + _) hsum).trans (sub_add_sub_cancel' _ _ _)
  · intro r hr hkind
    obtain ⟨s, -, rfl⟩ := List.mem_map.mp hr
    rw [kind_resultOf] at hkind
    rw [source_resultOf, dfNum_resultOf]
    exact ⟨_, _, hd.contrastScores_eq_ok hkind, matrices_within settings hkind,
      hd.variableCount_withinMatrices hkind, hd.sourceDf_within hkind⟩
  · intro r hr hkind
    obtain ⟨s, hs, rfl⟩ := List.mem_map.mp hr
    rw [kind_resultOf] at hkind
    rw [source_resultOf, dfNum_resultOf]
    refine ⟨_, _, hd.contrastScores_eq_ok (hd.kindOf_intersection hkind),
      matrices_mixed settings hkind, Accepted.variableCount_mixedMatrices s, _,
      List.mem_map_of_mem (hd.difference_mem_all hs hkind), source_resultOf settings _, ?_, ?_⟩
    · rw [kind_resultOf, hd.kindOf_difference hs hkind]
    · rw [dfNum_resultOf]
      exact hd.sourceDf_mixed_eq_mul hs hkind

/-- Three groups, of two subjects and of one, and three occasions. -/
noncomputable def threeGroups : ObservationTable ℝ :=
  wholeTable 2 [(1, [0, 0], 2), (1, [0, 1], 5), (1, [0, 2], 4), (2, [0, 0], 1), (2, [0, 1], 3),
    (2, [0, 2], 9), (3, [1, 0], 6), (3, [1, 1], 8), (3, [1, 2], 7), (4, [2, 0], 3), (4, [2, 1], 3),
    (4, [2, 2], 5)]

/-- The degrees of freedom of the groups, of the occasions and of both, and of the error of the
groups. -/
theorem dividesDf_threeGroups : threeGroups.Built ∧
    ∃ d, ofTable threeGroups {} = .ok d ∧ ∃ table, anova threeGroups {} = .ok table ∧
      table.subjectCount = 4 ∧ table.dfOfKind .between = 2 ∧ table.dfOfKind .within = 2 ∧
      (table.results.map (·.test.dfNum)).sum = 8 ∧
      ∀ r ∈ table.results, (r.kind = .between → r.test.dfDen = 1) ∧
        (r.kind = .mixed → ∃ b ∈ table.results, b.kind = .between ∧
          b.source = r.source.difference d.withinMask) := by
  have hbuilt : threeGroups.Built := built_wholeTable (by decide) (by decide)
  have hofTable : ofTable threeGroups {} = .ok (tableCoding threeGroups {}).toDesign := rfl
  obtain ⟨table, htable, -, hsubjects, -, -, hdf⟩ := anova_dividesDf hbuilt hofTable
  have hfour : table.subjectCount = 4 := hsubjects.trans (by decide)
  have hgroups : (tableCoding threeGroups {}).betweenCellCount = 3 := by decide
  have hoccasions : (tableCoding threeGroups {}).withinCellCount = 3 := by decide
  have hlevels : ((tableCoding threeGroups {}).factors.map Factor.levelCount).prod = 9 := by decide
  refine ⟨hbuilt, _, hofTable, table, htable, hfour, hdf.between.trans ?_, hdf.within.trans ?_,
    hdf.all.trans ?_, fun r hr => ⟨fun hkind => (hdf.error r hr hkind).1.trans ?_, fun hkind => ?_⟩⟩
  · show (((tableCoding threeGroups {}).betweenCellCount : ℕ) : ℝ) - 1 = 2
    rw [hgroups]
    norm_num
  · show (((tableCoding threeGroups {}).withinCellCount : ℕ) : ℝ) - 1 = 2
    rw [hoccasions]
    norm_num
  · show ((((tableCoding threeGroups {}).factors.map Factor.levelCount).prod : ℕ) : ℝ) - 1 = 8
    rw [hlevels]
    norm_num
  · show (table.subjectCount : ℝ) - (((tableCoding threeGroups {}).betweenCellCount : ℕ) : ℝ) = 1
    rw [hfour, hgroups]
    norm_num
  · obtain ⟨D, m, -, -, -, b, hb, hsource, hbetween, -⟩ := hdf.mixed r hr hkind
    exact ⟨b, hb, hbetween, hsource⟩

end Design

end SplitPlot
