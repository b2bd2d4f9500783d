import Mathlib
import SplitPlot.Proofs.Relabelling.Runs

/-!
# The order of the factors

The columns of a table are put in another order, and the names of the factors with them.  The
numbers of the factors change, and with them the bits of every source, the axes of every table of
cells and the order in which these are read.  No test changes (`anova_permuteColumns`): the test of
a source is that of the source with the new numbers (`Source.permute`).
-/

namespace SplitPlot

open Finset

/-! ## Lists in another order -/

section Permute

variable {α : Type} [Inhabited α] {π : Equiv.Perm ℕ} {l : List α}

/-- The list that shows at place `π f` what was at place `f`. -/
def permute (π : Equiv.Perm ℕ) (l : List α) : List α :=
  (List.range l.length).map fun g => l.getD (π.symm g) default

@[simp] theorem length_permute (π : Equiv.Perm ℕ) (l : List α) :
    (permute π l).length = l.length := by
  rw [permute, List.length_map, List.length_range]

theorem getElem?_permute (hπ : ∀ f, π f < l.length ↔ f < l.length) (f : ℕ) :
    (permute π l)[π f]? = l[f]? := by
  by_cases hf : f < l.length
  · rw [permute, List.getElem?_map, List.getElem?_range ((hπ f).mpr hf), Option.map_some,
      Equiv.symm_apply_apply, List.getD_eq_getElem _ _ hf, List.getElem?_eq_getElem hf]
  · have hpermute : ¬ π f < (permute π l).length := by rwa [length_permute, hπ]
    rw [List.getElem?_eq_none (not_lt.mp hf), List.getElem?_eq_none (not_lt.mp hpermute)]

theorem symm_lt_iff {n : ℕ} (hπ : ∀ f, π f < n ↔ f < n) (f : ℕ) : π.symm f < n ↔ f < n := by
  rw [← hπ, Equiv.apply_symm_apply]

theorem permute_symm_permute (hπ : ∀ f, π f < l.length ↔ f < l.length) :
    permute π.symm (permute π l) = l := by
  have hsymm : ∀ f, π.symm f < (permute π l).length ↔ f < (permute π l).length := by
    rw [length_permute]
    exact symm_lt_iff hπ
  refine List.ext_getElem? fun f => ?_
  have h := getElem?_permute hsymm (π f)
  rw [Equiv.symm_apply_apply] at h
  rw [h, getElem?_permute hπ]

end Permute

/-! ## What is put in another order -/

/-- The source of the factors with their new numbers. -/
def Source.permute (π : Equiv.Perm ℕ) (s : Source) : Source := .span (s.factors.map π)

/-- The settings with the names of the factors in another order. -/
def Settings.permuteNames (π : Equiv.Perm ℕ) (settings : Settings) : Settings :=
  { settings with factorNames := settings.factorNames.map (SplitPlot.permute π) }

theorem Settings.length_resolveNames_permuteNames (π : Equiv.Perm ℕ) (settings : Settings) (k : ℕ) :
    ((settings.permuteNames π).resolveNames k).length = (settings.resolveNames k).length := by
  rw [resolveNames, resolveNames, permuteNames]
  cases settings.factorNames with
  | none => rfl
  | some names => exact length_permute π names

theorem Source.toFinset_permute {π : Equiv.Perm ℕ} {k : ℕ} (hk : k ≤ 16)
    (hπ : ∀ f, π f < k ↔ f < k) {s : Source} (hs : s.toFinset ⊆ range k) :
    (s.permute π).toFinset = s.toFinset.image π := by
  have hfactors : ∀ f, f ∈ s.factors ↔ f ∈ s.toFinset := fun f => by
    rw [← List.mem_toFinset, toFinset_factors (hs.trans (range_subset_range.mpr hk))]
  rw [permute, toFinset_span]
  · ext g
    simp only [List.mem_toFinset, List.mem_map, mem_image, hfactors]
  · intro g hg
    obtain ⟨f, hf, rfl⟩ := List.mem_map.mp hg
    have hlt := (hπ f).mpr (mem_range.mp (hs ((hfactors f).mp hf)))
    exact (hlt.trans_le hk).trans (by decide)

namespace ObservationTable

/-- The table with its columns in another order. -/
def permuteColumns (π : Equiv.Perm ℕ) (t : ObservationTable ℝ) : ObservationTable ℝ :=
  t.mapRows fun o => { o with levels := permute π o.levels }

variable {t : ObservationTable ℝ} (ht : t.Built) {π : Equiv.Perm ℕ}

theorem Built.permuteColumns (ht : t.Built) (π : Equiv.Perm ℕ) :
    (t.permuteColumns π).Built :=
  ht.mapRows (g := fun o => { o with levels := permute π o.levels }) fun o =>
    length_permute π o.levels

variable (hπ : ∀ f, π f < t.factorCount ↔ f < t.factorCount)

include ht hπ

theorem permuteColumns_symm_permuteColumns : (t.permuteColumns π).permuteColumns π.symm = t := by
  have hrows : ∀ o ∈ t.rows, { o with levels := permute π.symm (permute π o.levels) } = o :=
    fun o ho => by rw [permute_symm_permute (by rwa [ht.length_levels ho])]
  rw [permuteColumns, permuteColumns, mapRows, mapRows, List.map_map]
  exact congrArg (ObservationTable.mk t.width?) ((List.map_congr_left hrows).trans (List.map_id' _))

/-- The table with its columns in another order is a rewritten one with the same names. -/
def permutation : Rewriting t (t.permuteColumns π) where
  row o := { o with levels := permute π o.levels }
  factor := π
  subject s := s
  level _ l := l
  scale := 1
  shift := 0
  rows_eq := rfl
  factorCount_eq := rfl
  factor_lt := hπ
  subject_row _ _ := rfl
  level_row r hr f := by
    rw [Option.map_id']
    exact getElem?_permute (by rwa [ht.length_levels hr]) f
  value_row r _ := by rw [one_mul, add_zero]
  subject_inj _ _ _ _ h := h
  level_inj _ _ _ _ _ h := h

end ObservationTable

/-! ## The analysis of permuted columns -/

variable {t : ObservationTable ℝ} (ht : t.Built) {π : Equiv.Perm ℕ} {settings settings' : Settings}

include ht

/-- The columns of a table that is analysed can be put in another order. -/
theorem exists_anova_permuteColumns (hπ : ∀ f, π f < t.factorCount ↔ f < t.factorCount)
    (hnames : (settings'.resolveNames t.factorCount).length =
      (settings.resolveNames t.factorCount).length)
    (hduplicates : settings'.duplicates = settings.duplicates)
    (h : ∃ table, anova t settings = .ok table) :
    ∃ table, anova (t.permuteColumns π) settings' = .ok table := by
  obtain ⟨table, h⟩ := h
  obtain ⟨-, d', -, -, -, h'⟩ :=
    (ObservationTable.permutation ht hπ).exists_run ht (ht.permuteColumns π) hnames hduplicates h
  exact ⟨_, h'⟩

/-- A table is analysed with its columns in another order exactly if it is analysed. -/
theorem exists_anova_permuteColumns_iff (hπ : ∀ f, π f < t.factorCount ↔ f < t.factorCount) :
    (∃ table, anova t settings = .ok table) ↔
      ∃ table, anova (t.permuteColumns π) (settings.permuteNames π) = .ok table := by
  have hnames := settings.length_resolveNames_permuteNames π t.factorCount
  refine ⟨exists_anova_permuteColumns ht hπ hnames rfl, fun h => ?_⟩
  rw [← ObservationTable.permuteColumns_symm_permuteColumns ht hπ]
  exact exists_anova_permuteColumns (ht.permuteColumns π) (symm_lt_iff hπ) hnames.symm rfl h

/-- The result of a source has the kind and the test of the source with the new numbers. -/
theorem bySource?_permuteColumns (hπ : ∀ f, π f < t.factorCount ↔ f < t.factorCount)
    {table table' : AnovaTable ℝ} (h : anova t settings = .ok table)
    (h' : anova (t.permuteColumns π) (settings.permuteNames π) = .ok table') {s : Source}
    {r : SourceResult ℝ} (hr : table.bySource? s = some r) : ∃ r',
      table'.bySource? (s.permute π) = some r' ∧ r'.kind = r.kind ∧ r'.test = r.test := by
  have ht' := ht.permuteColumns π
  obtain ⟨d, hofTable, rfl⟩ := (anova_eq_ok_iff ht).mp h
  obtain ⟨d', hofTable', rfl⟩ := (anova_eq_ok_iff ht').mp h'
  have hd := Design.accepted_of_ofTable ht hofTable
  have hd' := Design.accepted_of_ofTable ht' hofTable'
  have hcount := Design.factorCount_ofTable ht hofTable
  let w := ObservationTable.permutation ht hπ
  let q := w.relabelling ht ht' hofTable hofTable'
  rw [hd.bySource?_table, Option.ite_none_right_eq_some] at hr
  obtain ⟨hs, hr⟩ := hr
  obtain rfl := Option.some.inj hr
  have hs' : (s.permute π).toFinset = s.toFinset.image π := by
    refine Source.toFinset_permute (hcount ▸ hd.factorCount_le) hπ ?_
    rw [← hcount]
    exact (hd.mem_all_iff.mp hs).1
  have hlevel : ∀ f ∈ d.withinPart s, ∀ i < d.levelCount f, q.level f i = i := fun f hf i hi =>
    w.level_relabelling ht ht' hofTable hofTable'
      (hcount ▸ Design.lt_factorCount_of_mem_withinPart hf) (fun _ _ => rfl) hi
  refine ⟨d'.resultOf (settings.permuteNames π) (s.permute π), ?_, ?_, ?_⟩
  · rw [hd'.bySource?_table, if_pos (q.mem_all_image hd hd' hs' hs)]
  · rw [Design.kind_resultOf, Design.kind_resultOf]
    exact q.kindOf_image hd hd' hs'
  · exact q.test_eq hd hd' hs' hs hlevel rfl rfl

/-- **The order of the factors does not matter.**  The columns of a table and the names of its
factors are put in another order.  The analysis succeeds in both orders or in none, and if it does,
the result of each source has the kind and the test of the source with the new numbers. -/
theorem anova_permuteColumns (settings : Settings)
    (hπ : ∀ f, π f < (settings.resolveNames t.factorCount).length ↔
      f < (settings.resolveNames t.factorCount).length) :
    ((∃ table, anova t settings = .ok table) ↔
      ∃ table, anova (t.permuteColumns π) (settings.permuteNames π) = .ok table) ∧
    ∀ table table', anova t settings = .ok table →
      anova (t.permuteColumns π) (settings.permuteNames π) = .ok table' →
      ∀ s r, table.bySource? s = some r → ∃ r', table'.bySource? (s.permute π) = some r' ∧
        r'.kind = r.kind ∧ r'.test = r.test := by
  have hlengths := settings.length_resolveNames_permuteNames π t.factorCount
  have hfirst : ∀ table, anova t settings = .ok table →
      ∀ f, π f < t.factorCount ↔ f < t.factorCount :=
    fun table h => length_names_of_anova ht h ▸ hπ
  have hsecond : ∀ table, anova (t.permuteColumns π) (settings.permuteNames π) = .ok table →
      ∀ f, π f < t.factorCount ↔ f < t.factorCount := fun table h => by
    have hlength : _ = t.factorCount := length_names_of_anova (ht.permuteColumns π) h
    rw [← hlength]
    exact hlengths ▸ hπ
  refine ⟨⟨?_, ?_⟩, fun table table' h h' s r => bySource?_permuteColumns ht (hfirst _ h) h h'⟩
  · rintro ⟨table, h⟩
    exact (exists_anova_permuteColumns_iff ht (hfirst _ h)).mp ⟨table, h⟩
  · rintro ⟨table, h⟩
    exact (exists_anova_permuteColumns_iff ht (hsecond _ h)).mpr ⟨table, h⟩

/-- The settings with names for the group and the occasion. -/
def namedOccasions : Settings := { factorNames := some ["group", "occasion"] }

omit ht in
/-- The group and the occasion change places, and the group has the test that it had. -/
theorem anova_permuteColumns_threeOccasions : threeOccasions.Built ∧
    (∀ f, Equiv.swap 0 1 f < (namedOccasions.resolveNames threeOccasions.factorCount).length ↔
      f < (namedOccasions.resolveNames threeOccasions.factorCount).length) ∧
    ∃ table table', anova threeOccasions namedOccasions = .ok table ∧
      anova (threeOccasions.permuteColumns (Equiv.swap 0 1))
        (namedOccasions.permuteNames (Equiv.swap 0 1)) = .ok table' ∧
      ∃ r r', table.bySource? (.span [0]) = some r ∧ table'.bySource? (.span [1]) = some r' ∧
        r.kind = .between ∧ r'.kind = .between ∧ r'.test = r.test := by
  have hπ : ∀ f, Equiv.swap 0 1 f < 2 ↔ f < 2 := fun f => by
    rw [Equiv.swap_apply_def]
    split_ifs <;> omega
  have hofTable : Design.ofTable threeOccasions namedOccasions =
      .ok (Design.tableCoding threeOccasions namedOccasions).toDesign := rfl
  have hd := Design.accepted_of_ofTable built_threeOccasions hofTable
  have htable := anova_eq_ok built_threeOccasions hofTable
  obtain ⟨hiff, hresults⟩ := anova_permuteColumns built_threeOccasions namedOccasions hπ
  obtain ⟨table', htable'⟩ := hiff.mp ⟨_, htable⟩
  have hfound := (hd.bySource?_table namedOccasions (.span [0])).trans (if_pos (by decide))
  obtain ⟨r', hr', hkind, htest⟩ := hresults _ _ htable htable' _ _ hfound
  have hbetween : ((Design.tableCoding threeOccasions namedOccasions).toDesign.resultOf
      namedOccasions (.span [0])).kind = .between := Design.kind_resultOf namedOccasions (.span [0])
  exact ⟨built_threeOccasions, hπ, _, table', htable, htable', _, r', hfound, hr', hbetween,
    hkind.trans hbetween, htest⟩

end SplitPlot
