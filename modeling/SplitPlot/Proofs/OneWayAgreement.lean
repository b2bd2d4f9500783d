import Mathlib
import SplitPlot.Proofs.Decomposition.Groups

/-!
# The analysis of one factor and the one-way analysis

A table with a single factor and one row for each subject is at the same time a design and a list of
groups of scores (`ObservationTable.groups`).  So there are two analyses of it, and this file
compares them.

They agree in the degrees of freedom and in the error.  They differ in how often a group mean is
counted in the sum of squares: the one-way analysis counts it once for each score of its group, the
analysis of a design weights all cells of the source of all factors alike, with the harmonic mean of
their sizes.  Hence the two statistics are the same exactly if the two sums of squares are, or if
there is no error and neither statistic is proper (`OneWay.exists_univariate_ssHarmonic`).  The sums
of squares of groups of one size are equal; those of a group of one score and a group of two are
not.
-/

namespace SplitPlot

open Finset

namespace OneWay

/-! ## Two tests of the same groups -/

/-- The test with the harmonic mean of the sizes and the one-way analysis of the same groups. -/
theorem exists_univariate_ssHarmonic {groups : List (List ℝ)} (hne : ∀ g ∈ groups, g ≠ [])
    (hk : 2 ≤ groups.length) (hn : groups.length < groups.flatten.length)
    {test : Significance ℝ} (htest : test = .univariate (ssHarmonic groups) (ssWithin groups)
      ((groups.length - 1 : ℕ) : ℝ) (groups.flatten.length - groups.length)) :
    ∃ o, ofGroups? groups = some o ∧ test.dfNum = o.dfBetween ∧ test.dfDen = o.dfWithin ∧
      (test.f = o.f ↔ ssWithin groups = 0 ∨ ssHarmonic groups = ssBetween groups) ∧
      (test.f = o.f → test.p = o.p) := by
  obtain ⟨o, ho, hbetween, hwithin, hf, hp⟩ := exists_ofGroups? hne hk hn
  have hnum : (0 : ℝ) < o.dfBetween := by
    rw [hbetween]
    exact Nat.cast_pos.mpr (by omega)
  have hden : (0 : ℝ) < o.dfWithin := by
    rw [hwithin]
    exact Nat.cast_pos.mpr (by omega)
  rw [← Nat.cast_sub hn.le, ← hbetween, ← hwithin] at htest
  subst htest
  refine ⟨o, ho, Significance.dfNum_univariate _ _ _ _, Significance.dfDen_univariate _ _ _ _, ?_,
    fun heq => ?_⟩
  · rw [(Significance.f_univariate hnum hden ssHarmonic_nonneg).1, hf]
    obtain hzero | hpos := (ssWithin_nonneg hne).eq_or_lt
    · rw [← hzero, zero_div, if_neg (lt_irrefl 0), if_neg (lt_irrefl 0)]
      exact ⟨fun _ => .inl rfl, fun _ => rfl⟩
    · have herror : 0 < ssWithin groups / o.dfWithin := div_pos hpos hden
      rw [if_pos herror, if_pos herror, div_left_inj' herror.ne', div_left_inj' hnum.ne']
      exact ⟨.inr, fun h => h.resolve_left hpos.ne'⟩
  · rw [(Significance.f_univariate hnum hden ssHarmonic_nonneg).2, heq, hp]

end OneWay

namespace ObservationTable

/-- The values of a table, grouped by the level of its first factor. -/
def groups {K : Type} (t : ObservationTable K) : List (List K) :=
  (columnLevels t.rows 0).map fun l =>
    (t.rows.filter fun r => r.levels[0]? == some l).map (·.value)

variable {t : ObservationTable ℝ}

/-! ## Tables without replicates -/

theorem nodup_key (h : (t.rows.map (·.subject)).Nodup) :
    (t.rows.map Observation.key).Nodup := by
  refine List.Nodup.of_map (fun key => key.headD default) ?_
  rw [List.map_map]
  exact h

/-- Averaging keeps the levels. -/
theorem columnLevels_averages (f : ℕ) : columnLevels t.averages f = columnLevels t.rows f := by
  refine eq_of_pairwise_of_mem_iff (pairwise_ascending _) (pairwise_ascending _) fun l => ?_
  rw [mem_columnLevels, mem_columnLevels]
  exact ⟨.mono Design.keysWithin_averages, .mono Design.keysWithin_rows⟩

end ObservationTable

namespace Design

/-! ## The design of a table with one factor -/

theorem length_names_oneFactor : (({} : Settings).resolveNames 1).length = 1 := rfl

section One

variable {t : ObservationTable ℝ} (hsubjects : (t.rows.map (·.subject)).Nodup)

include hsubjects

/-- No subject is at two levels. -/
theorem not_varies (f : ℕ) : ¬ Varies t.rows f := by
  rintro ⟨r, hr, r', hr', hsubject, hne⟩
  exact hne (by rw [List.inj_on_of_nodup_map hsubjects hr hr' hsubject])

variable (ht : t.Built) (hcount : t.factorCount = 1)

include ht hcount

/-- A table with one factor and one row for each subject is a design. -/
theorem ofTable_oneFactor (hrows : t.rows ≠ []) :
    ofTable t {} = .ok (tableCoding t {}).toDesign := by
  have hadm : Admissible t {} := by
    refine ⟨hrows, ?_, ?_, ?_, nofun⟩
    · rw [hcount]
    · rw [hcount]
      decide
    · rw [hcount, length_names_oneFactor]
  have hcrossed : Crossed t.rows {0} ∅ := by
    refine ⟨fun f _ => not_varies hsubjects f, fun g hg => ?_,
      fun r hr g _ => ⟨r, hr, rfl, nofun⟩, nofun⟩
    obtain ⟨r, hr, hl⟩ := hg 0 (mem_singleton_self 0)
    refine ⟨r, hr, fun f hf => ?_⟩
    rw [mem_singleton] at hf
    rw [hf, hl]
  refine ofTable_of_crossed ht hadm ?_ hcrossed
  rw [hcount, union_empty]
  rfl

variable {d : Design ℝ} (h : ofTable t {} = .ok d)

include h

omit hsubjects in
theorem factorCount_oneFactor : d.factorCount = 1 := (factorCount_ofTable ht h).trans hcount

/-- The factor is one between subjects. -/
theorem withinFactors_oneFactor : d.withinFactors = [] := by
  refine List.eq_nil_iff_forall_not_mem.mpr fun f hf => ?_
  obtain ⟨hf, hwithin⟩ := Coding.mem_withinFactors.mp hf
  rw [factorCount_oneFactor ht hcount h, ← hcount] at hf
  exact not_varies hsubjects f ((within_factor_iff_varies ht h hf).mp hwithin)

/-- The scores at a level are the subject means of the cell of that level. -/
theorem group_perm_cellScores {cell : ℕ} (hcell : cell < (columnLevels t.averages 0).length) :
    ((t.rows.filter fun r => r.levels[0]? == some (columnLevels t.averages 0)[cell]).map
      (·.value)).Perm (d.cellScores cell) := by
  have hd := accepted_of_ofTable ht h
  have hwithin := withinFactors_oneFactor hsubjects ht hcount h
  have hone := betweenFactors_oneFactor (factorCount_oneFactor ht hcount h) hwithin
  have hnames : (({} : Settings).resolveNames t.factorCount).length = 1 := by
    rw [hcount, length_names_oneFactor]
  have hcode : ∀ r ∈ t.averages, (r.levels[0]? == some (columnLevels t.averages 0)[cell]) =
      (flatIndex ((code t.averages (({} : Settings).resolveNames t.factorCount) r).levelsAt
        d.betweenFactors) d.betweenShape == cell) := fun r hr => by
    have hlevel := getD_levels_code_eq_iff (r := r) (f := 0)
      ((length_levels_averages ht r hr).trans (hcount.trans hnames.symm)) (hnames ▸ Nat.one_pos)
      (mem_columnLevels.mp (List.getElem_mem hcell))
    rw [(nodup_columnLevels 0).idxOf_getElem cell hcell] at hlevel
    rw [Bool.eq_iff_iff, beq_iff_eq, beq_iff_eq, ← hlevel, hone]
    show _ ↔ flatIndex [_] _ = _
    rw [flatIndex_oneFactor hone]
  have hperm := hd.cellScores_perm hwithin cell
  rw [observations_ofTable ht h, List.filter_map, List.map_map] at hperm
  have hrows := ((ObservationTable.averages_perm (ObservationTable.nodup_key hsubjects)
    fun r _ => mean_singleton r.value).filter
    fun r => r.levels[0]? == some (columnLevels t.averages 0)[cell]).map (·.value)
  rw [List.filter_congr hcode] at hrows
  exact hrows.symm.trans hperm

/-- The groups of the table are those of its design. -/
theorem sameGroups_oneFactor : OneWay.SameGroups t.groups d.groups := by
  have hwithin := withinFactors_oneFactor hsubjects ht hcount h
  have hone := betweenFactors_oneFactor (factorCount_oneFactor ht hcount h) hwithin
  have hnames : (({} : Settings).resolveNames t.factorCount).length = 1 := by
    rw [hcount, length_names_oneFactor]
  have hcells : d.betweenCellCount = (columnLevels t.averages 0).length := by
    have hshape : d.betweenShape = [(columnLevels t.averages 0).length] := by
      rw [Coding.betweenShape, hone, eq_of_ofTable ht h]
      exact congrArg (fun n => [n]) (levelCount_rowCoding (hnames ▸ Nat.one_pos))
    rw [Coding.betweenCellCount, hshape, cellCount_cons, cellCount_nil, mul_one]
  have hgroups : t.groups = (columnLevels t.averages 0).map fun l =>
      (t.rows.filter fun r => r.levels[0]? == some l).map (·.value) := by
    rw [ObservationTable.groups, ObservationTable.columnLevels_averages]
  rw [OneWay.SameGroups, hgroups, groups, List.map_map, List.map_map]
  refine List.Perm.of_eq (List.ext_getElem ?_ fun cell hcell hcell' => ?_)
  · rw [List.length_map, List.length_map, List.length_range, hcells]
  · rw [List.getElem_map, List.getElem_map, List.getElem_range]
    rw [List.length_map] at hcell
    exact Multiset.coe_eq_coe.mpr (group_perm_cellScores hsubjects ht hcount h hcell)

/-- The rows are the scores of all groups. -/
theorem length_flatten_oneFactor : t.groups.flatten.length = t.rows.length := by
  have hd := accepted_of_ofTable ht h
  have hsubjects' := (hd.subjects_perm (withinFactors_oneFactor hsubjects ht hcount h)).length_eq
  rw [List.length_map, List.length_range, observations_ofTable ht h, List.length_map,
    (ObservationTable.averages_perm (ObservationTable.nodup_key hsubjects)
      fun r _ => mean_singleton r.value).length_eq] at hsubjects'
  rw [(sameGroups_oneFactor hsubjects ht hcount h).flatten_perm.length_eq, hd.length_flatten_groups,
    hsubjects']

omit h

/-- The analysis of a table with one factor and one row for each subject has one result. -/
theorem anova_oneFactor (hrows : t.rows ≠ []) {groups : List (List ℝ)}
    (hgroups : OneWay.SameGroups groups t.groups) :
    (∀ g ∈ groups, g ≠ []) ∧ groups.flatten.length = t.rows.length ∧
      ∃ table r, anova t {} = .ok table ∧ table.results = [r] ∧ r.kind = .between ∧
        r.test = .univariate (OneWay.ssHarmonic groups) (OneWay.ssWithin groups)
          ((groups.length - 1 : ℕ) : ℝ) (groups.flatten.length - groups.length) := by
  have h := ofTable_oneFactor hsubjects ht hcount hrows
  have hd := accepted_of_ofTable ht h
  have hone := factorCount_oneFactor ht hcount h
  have hsame : OneWay.SameGroups groups (tableCoding t {}).toDesign.groups :=
    List.Perm.trans hgroups (sameGroups_oneFactor hsubjects ht hcount h)
  obtain ⟨hkind, htest⟩ := hd.test_oneFactor hone (withinFactors_oneFactor hsubjects ht hcount h) {}
  refine ⟨fun g hg hnil => ?_, ?_, _, _, anova_eq_ok ht h, ?_, (kind_resultOf {} _).trans hkind, ?_⟩
  · have hmem := (hsame.map_perm fun _ _ hg => hg.isEmpty_eq).mem_iff.mp
      (List.mem_map.mpr ⟨g, hg, List.isEmpty_iff.mpr hnil⟩)
    obtain ⟨g', hg', hempty⟩ := List.mem_map.mp hmem
    exact hd.ne_nil_of_mem_groups g' hg' (List.isEmpty_iff.mp hempty)
  · rw [hgroups.flatten_perm.length_eq, length_flatten_oneFactor hsubjects ht hcount h]
  · have hall : Source.all 1 = [.span [0]] := by decide
    show (Source.all (tableCoding t {}).toDesign.factorCount).map _ = _
    rw [hone, hall]
    rfl
  · rw [htest, hsame.ssHarmonic_eq, hsame.ssWithin_eq, hsame.length_eq,
      hsame.flatten_perm.length_eq]

/-- **The analysis of one factor.**  For a table with one factor and one row for each subject, at
least two groups and more subjects than groups, the only result of an analysis has the degrees of
freedom and the error of the one-way analysis of the groups.  Its sum of squares counts every group
mean as often as the groups have scores on harmonic average, and the statistics agree exactly if
this is the sum of squares between the groups or there is no error.  If they agree, so do the
probabilities, and they agree for groups of one size. -/
theorem anova_f_eq_ofGroups_iff (hk : 2 ≤ t.groups.length) (hn : t.groups.length < t.rows.length)
    {groups : List (List ℝ)} (hgroups : OneWay.SameGroups groups t.groups) :
    ∃ table r o, anova t {} = .ok table ∧ table.results = [r] ∧ r.kind = .between ∧
      OneWay.ofGroups? groups = some o ∧
      r.test.dfNum = o.dfBetween ∧ r.test.dfDen = o.dfWithin ∧
      r.test.errorSs = OneWay.ssWithin groups ∧
      r.test.ss = harmonicMean (groups.map fun g => (g.length : ℝ)) *
        (groups.map fun g => (mean g - mean groups.flatten) ^ 2).sum ∧
      (r.test.f = o.f ↔ OneWay.ssWithin groups = 0 ∨ r.test.ss = OneWay.ssBetween groups) ∧
      (r.test.f = o.f → r.test.p = o.p) ∧
      ∀ m, (∀ g ∈ groups, g.length = m) → r.test.f = o.f ∧ r.test.p = o.p := by
  have hrows : t.rows ≠ [] := List.ne_nil_of_length_pos (by omega)
  obtain ⟨hne, hflatten, table, r, htable, hr, hkind, htest⟩ :=
    anova_oneFactor hsubjects ht hcount hrows hgroups
  have hk' : 2 ≤ groups.length := hgroups.length_eq ▸ hk
  obtain ⟨o, ho, hnum, hden, hf, hp⟩ := OneWay.exists_univariate_ssHarmonic hne hk'
    (hgroups.length_eq ▸ hflatten ▸ hn) htest
  have hss : r.test.ss = OneWay.ssHarmonic groups := by
    rw [htest, Significance.ss_univariate]
  refine ⟨table, r, o, htable, hr, hkind, ho, hnum, hden, ?_, hss, ?_, hp, fun m hm => ?_⟩
  · rw [htest, Significance.errorSs_univariate]
  · rw [hss, hf]
  · have hequal := OneWay.ssHarmonic_eq_ssBetween hne (List.ne_nil_of_length_pos (by omega)) hm
    have hfeq := hf.mpr (.inr hequal)
    exact ⟨hfeq, hp hfeq⟩

end One

/-- Two groups of two subjects. -/
noncomputable def evenGroups : ObservationTable ℝ :=
  wholeTable 1 [(1, [0], 1), (2, [0], 3), (3, [1], 2), (4, [1], 6)]

theorem built_evenGroups : evenGroups.Built := built_wholeTable (by decide) (by decide)

theorem groups_evenGroups : evenGroups.groups = [[1, 3], [2, 6]] := by
  have hgroups : evenGroups.groups = [[1, 3], [2, 6]].map (List.map Int.cast) := rfl
  rw [hgroups]
  simp

/-- The two analyses of the groups of two agree, whichever group is named first. -/
theorem anova_f_evenGroups : evenGroups.Built ∧ evenGroups.factorCount = 1 ∧
    (evenGroups.rows.map (·.subject)).Nodup ∧ OneWay.SameGroups [[6, 2], [1, 3]] evenGroups.groups ∧
    ∃ table r o, anova evenGroups {} = .ok table ∧ table.results = [r] ∧
      OneWay.ofGroups? [[6, 2], [1, 3]] = some o ∧ r.test.f = o.f ∧ r.test.p = o.p := by
  have hsubjects : (evenGroups.rows.map (·.subject)).Nodup := by decide
  have hgroups : OneWay.SameGroups [[6, 2], [1, 3]] evenGroups.groups := by
    have hpair : Multiset.ofList [(6 : ℝ), 2] = Multiset.ofList [2, 6] :=
      Multiset.coe_eq_coe.mpr (.swap _ _ _)
    rw [groups_evenGroups]
    show [Multiset.ofList [(6 : ℝ), 2], Multiset.ofList [1, 3]].Perm
      [Multiset.ofList [1, 3], Multiset.ofList [2, 6]]
    rw [hpair]
    exact .swap _ _ _
  obtain ⟨table, r, o, htable, hr, -, ho, -, -, -, -, -, -, hequal⟩ :=
    anova_f_eq_ofGroups_iff hsubjects built_evenGroups rfl (by decide) (by decide) hgroups
  obtain ⟨hf, hp⟩ := hequal 2 (by simp)
  exact ⟨built_evenGroups, rfl, hsubjects, hgroups, table, r, o, htable, hr, ho, hf, hp⟩

/-- A group of one subject and a group of two. -/
noncomputable def unevenGroups : ObservationTable ℝ :=
  wholeTable 1 [(1, [0], 0), (2, [1], 3), (3, [1], 5)]

theorem built_unevenGroups : unevenGroups.Built := built_wholeTable (by decide) (by decide)

theorem groups_unevenGroups : unevenGroups.groups = [[0], [3, 5]] := by
  have hgroups : unevenGroups.groups = [[0], [3, 5]].map (List.map Int.cast) := rfl
  rw [hgroups]
  simp

theorem ssWithin_unevenGroups : OneWay.ssWithin unevenGroups.groups = 2 := by
  rw [groups_unevenGroups, OneWay.ssWithin_eq (by simp)]
  simp only [mean_eq, List.map_cons, List.map_nil, List.sum_cons, List.sum_nil, List.length_cons,
    List.length_nil]
  norm_num

theorem ssBetween_unevenGroups : OneWay.ssBetween unevenGroups.groups = 32 / 3 := by
  rw [groups_unevenGroups, OneWay.ssBetween_eq (by simp) (by simp)]
  simp only [mean_eq, List.map_cons, List.map_nil, List.sum_cons, List.sum_nil, List.length_cons,
    List.length_nil, List.flatten_cons, List.flatten_nil, List.cons_append, List.nil_append]
  norm_num

theorem ssHarmonic_unevenGroups : OneWay.ssHarmonic unevenGroups.groups = 320 / 27 := by
  rw [groups_unevenGroups, OneWay.ssHarmonic, harmonicMean_eq (by simp)]
  simp only [mean_eq, List.map_cons, List.map_nil, List.sum_cons, List.sum_nil, List.length_cons,
    List.length_nil, List.flatten_cons, List.flatten_nil, List.cons_append, List.nil_append]
  norm_num

/-- The two analyses of the groups of one and of two subjects have different statistics. -/
theorem f_unevenGroups : unevenGroups.Built ∧ unevenGroups.factorCount = 1 ∧
    (unevenGroups.rows.map (·.subject)).Nodup ∧ unevenGroups.groups = [[0], [3, 5]] ∧
    ∃ table r o, anova unevenGroups {} = .ok table ∧ table.results = [r] ∧ r.kind = .between ∧
      OneWay.ofGroups? unevenGroups.groups = some o ∧ r.test.f = 160 / 27 ∧ o.f = 16 / 3 ∧
      r.test.f ≠ o.f := by
  have hsubjects : (unevenGroups.rows.map (·.subject)).Nodup := by decide
  obtain ⟨hne, hflatten, table, r, htable, hr, hkind, htest⟩ := anova_oneFactor hsubjects
    built_unevenGroups rfl (List.cons_ne_nil _ _) (List.Perm.refl _)
  obtain ⟨o, ho, hbetween, hwithin, hof, -⟩ := OneWay.exists_ofGroups? hne (by decide) (by decide)
  have hf : r.test.f = 160 / 27 := by
    have hdf : (([[0], [3, 5]] : List (List ℝ)).flatten.length : ℝ) -
        ([[0], [3, 5]] : List (List ℝ)).length = 1 := by norm_num
    rw [htest, ssHarmonic_unevenGroups, ssWithin_unevenGroups, groups_unevenGroups, hdf,
      (Significance.f_univariate (by norm_num) one_pos (by norm_num)).1]
    norm_num
  have hf' : o.f = 16 / 3 := by
    rw [hof, hbetween, hwithin, ssWithin_unevenGroups, ssBetween_unevenGroups, groups_unevenGroups]
    norm_num
  refine ⟨built_unevenGroups, rfl, hsubjects, groups_unevenGroups, table, r, o, htable, hr, hkind,
    ho, hf, hf', ?_⟩
  rw [hf, hf']
  norm_num

end Design

end SplitPlot
