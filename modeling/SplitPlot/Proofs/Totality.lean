import Mathlib
import SplitPlot.Proofs.Results
import SplitPlot.Proofs.Design.Observations
import SplitPlot.Proofs.Exact

/-!
# An analysis is total and complete

An analysis of a table can be kept from its result by the table alone.  If the table is a design,
then no step after that is at fault: each effect that is asked for has been stored, none is stored
twice, the contrast scores of every source are there, and the tables that are taken away from one
another fit (`Design.Accepted.run_eq_ok`).  If the table is no design, the cause is passed on as it
is (`anova_eq_error`).  So the tables with a result are the designs (`anova_eq_ok_iff`).

The table of results is complete.  It has one result for each set of factors that is not empty, in
ascending order of the sources, and because of this order the search by halving finds the result of
a source if there is one (`AnovaTable.bySource?_eq_some_iff`).
-/

namespace SplitPlot

variable {K : Type}

/-! ## Looking up a result -/

namespace AnovaTable

/-- The sources of the results ascend. -/
def Ascending (t : AnovaTable K) : Prop :=
  t.results.Pairwise fun r r' => r.source.bits.toNat < r'.source.bits.toNat

variable {t : AnovaTable K}

/-- A source divides the results into those before it and those behind it. -/
theorem Ascending.pairwise_cut (h : t.Ascending) (s : Source) :
    t.results.Pairwise fun r r' => r.source.compare s ≠ .lt → r'.source.compare s = .gt := by
  refine List.Pairwise.imp (fun {r r'} hlt hge => ?_) h
  rw [Source.compare, ne_eq, Nat.compare_eq_lt, not_lt] at hge
  rw [Source.compare, Nat.compare_eq_gt]
  exact lt_of_le_of_lt hge hlt

/-- Among ascending results exactly the result of a source is found under it. -/
theorem bySource?_eq_some_iff (h : t.Ascending) {s : Source} {r : SourceResult K} :
    t.bySource? s = some r ↔ r ∈ t.results ∧ r.source = s := by
  rw [bySource?, searchAscending_eq_some_iff (h.pairwise_cut s), Source.compare, Nat.compare_eq_eq]
  exact and_congr_right fun _ =>
    ⟨fun heq => Source.ext (BitVec.eq_of_toNat_eq heq), fun heq => by rw [heq]⟩

/-- The table has one result for each set of factors that is not empty, in ascending order of the
sources, and finds it under its source and nothing under any other source. -/
structure Complete (t : AnovaTable K) (k : ℕ) : Prop where
  length_results : t.results.length = 2 ^ k - 1
  ascending : t.Ascending
  exists_result_iff : ∀ S : Finset ℕ, (∃ r ∈ t.results, r.source.toFinset = S) ↔
    S.Nonempty ∧ S ⊆ Finset.range k
  bySource?_eq_some : ∀ s : Source, s.toFinset.Nonempty → s.toFinset ⊆ Finset.range k →
    ∃ r ∈ t.results, t.bySource? s = some r ∧ r.source = s
  bySource?_eq_none : ∀ s : Source, ¬ (s.toFinset.Nonempty ∧ s.toFinset ⊆ Finset.range k) →
    t.bySource? s = none

end AnovaTable

/-! ## One result for each source -/

theorem Source.length_all (k : ℕ) : (Source.all k).length = 2 ^ k - 1 := by
  rw [Source.all, List.length_map, List.length_range]
  rfl

variable [Scalar K]

namespace Design

variable {d : Design K}

/-- The results for all sources of a design. -/
def table (d : Design K) (settings : Settings) : AnovaTable K :=
  ⟨d.factors, d.subjectCount, (Source.all d.factorCount).map (d.resultOf settings)⟩

theorem length_results_table (settings : Settings) :
    (d.table settings).results.length = 2 ^ d.factorCount - 1 := by
  rw [table, List.length_map, Source.length_all]

namespace Accepted

variable (hd : d.Accepted) (settings : Settings)

include hd

theorem ascending_table : (d.table settings).Ascending := by
  have hall := Source.pairwise_all (hd.factorCount_le.trans (by decide : 16 ≤ 30))
  refine List.pairwise_map.mpr (hall.imp fun hlt => ?_)
  rwa [source_resultOf, source_resultOf]

/-- The result of a source of the design is found, and under no other source anything is. -/
theorem bySource?_table (s : Source) : (d.table settings).bySource? s =
    if s ∈ Source.all d.factorCount then some (d.resultOf settings s) else none := by
  have hfound := fun r => AnovaTable.bySource?_eq_some_iff (r := r) (hd.ascending_table settings)
    (s := s)
  split
  · next hs =>
    exact (hfound _).mpr ⟨List.mem_map_of_mem hs, source_resultOf settings s⟩
  · next hs =>
    rw [Option.eq_none_iff_forall_ne_some]
    intro r hr
    obtain ⟨hr, hsource⟩ := (hfound r).mp hr
    obtain ⟨s', hs', rfl⟩ := List.mem_map.mp hr
    rw [source_resultOf] at hsource
    exact hs (hsource ▸ hs')

theorem complete_table : (d.table settings).Complete d.factorCount where
  length_results := d.length_results_table settings
  ascending := hd.ascending_table settings
  exists_result_iff S := by
    constructor
    · rintro ⟨r, hr, rfl⟩
      obtain ⟨s, hs, rfl⟩ := List.mem_map.mp hr
      rw [source_resultOf]
      exact (hd.mem_all_iff.mp hs).symm
    · rintro ⟨hne, hsub⟩
      obtain ⟨s, rfl⟩ := Source.exists_toFinset_eq (hd.factorCount_le.trans (by decide)) hsub
      refine ⟨_, List.mem_map_of_mem (hd.mem_all_iff.mpr ⟨hsub, hne⟩), ?_⟩
      rw [source_resultOf]
  bySource?_eq_some s hne hsub := by
    have hs := hd.mem_all_iff.mpr ⟨hsub, hne⟩
    refine ⟨_, List.mem_map_of_mem hs, ?_, source_resultOf settings s⟩
    rw [hd.bySource?_table, if_pos hs]
  bySource?_eq_none s hs := by
    rw [hd.bySource?_table, if_neg fun h => hs (hd.mem_all_iff.mp h).symm]

end Accepted

end Design

/-! ## Total and complete -/

/-- What keeps a table from being a design keeps it from being analysed. -/
theorem anova_eq_error {t : ObservationTable K} {settings : Settings} {e : DesignError}
    (h : Design.ofTable t settings = .error e) : anova t settings = .error (.design e) := by
  rw [anova, Analysis.ofTable, h]
  rfl

/-- The analysis of a table that is a design is prepared. -/
theorem Analysis.ofTable_eq_ok {t : ObservationTable K} (ht : t.Built) {settings : Settings}
    {d : Design K} (h : Design.ofTable t settings = .ok d) :
    Analysis.ofTable t settings = .ok (d.prepared settings ∅) := by
  rw [Analysis.ofTable, h]
  exact (Design.accepted_of_ofTable ht h).ofDesign_eq_ok settings

/-- An analysis succeeds exactly on the tables that are designs. -/
theorem anova_eq_ok_iff {t : ObservationTable K} (ht : t.Built) {settings : Settings}
    {table : AnovaTable K} : anova t settings = .ok table ↔
      ∃ d, Design.ofTable t settings = .ok d ∧ table = d.table settings := by
  constructor
  · intro htable
    cases hofTable : Design.ofTable t settings with
    | error e => rw [anova_eq_error hofTable] at htable; cases htable
    | ok d =>
      rw [anova_eq_ok ht hofTable] at htable
      exact ⟨d, rfl, (Except.ok.inj htable).symm⟩
  · rintro ⟨d, hofTable, rfl⟩
    exact anova_eq_ok ht hofTable

/-- Two groups of one subject, each measured twice. -/
noncomputable def measuredTwice : ObservationTable ℝ :=
  wholeTable 2 [(1, [0, 0], 3), (1, [0, 1], 5), (2, [1, 0], 6), (2, [1, 1], 7)]

end SplitPlot
