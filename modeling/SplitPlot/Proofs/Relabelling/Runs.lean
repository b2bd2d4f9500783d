import Mathlib
import SplitPlot.Proofs.Relabelling.Results
import SplitPlot.Proofs.Relabelling.Tables
import SplitPlot.Proofs.Totality

/-!
# The analysis of a rewritten table

An analysis succeeds on a rewritten table if it succeeds on the table, and the two tables of results
are those of relabelled designs (`Rewriting.exists_run`).  The results of corresponding sources are
compared in `SplitPlot.Proofs.Relabelling.Results`; what is left to say here is when a level has the
place that it had before (`Rewriting.level_relabelling`).

A table is rewritten by a function on rows (`ObservationTable.mapRows`), which has to leave each row
as long as it was.
-/

namespace SplitPlot

open Finset

/-! ## Tables with rewritten rows -/

namespace ObservationTable

/-- The table with each row rewritten. -/
def mapRows (g : Observation ℝ → Observation ℝ) (t : ObservationTable ℝ) : ObservationTable ℝ :=
  ⟨t.width?, t.rows.map g⟩

/-- Rewritten rows could have been offered in place of the rows. -/
theorem Built.mapRows {g : Observation ℝ → Observation ℝ}
    (hg : ∀ o, (g o).levels.length = o.levels.length) {t : ObservationTable ℝ} (ht : t.Built) :
    (t.mapRows g).Built := by
  induction ht with
  | empty => exact .empty
  | push t o _ ih =>
    have hpush : ((t.mapRows g).push (g o)).2 = ((t.push o).2).mapRows g := by
      rw [ObservationTable.push, ObservationTable.push]
      dsimp only
      have hwidth : (t.mapRows g).width? = t.width? := rfl
      rw [hg, hwidth, if_neg (not_not.mpr (isFinite _)), if_neg (not_not.mpr (isFinite _))]
      split
      · rfl
      · simp only [ObservationTable.mapRows, List.map_append, List.map_singleton]
    rw [← hpush]
    exact .push _ _ ih

end ObservationTable

/-! ## Two runs -/

/-- A table that is analysed has a name for each factor. -/
theorem length_names_of_anova {t : ObservationTable ℝ} (ht : t.Built) {settings : Settings}
    {table : AnovaTable ℝ} (h : anova t settings = .ok table) :
    (settings.resolveNames t.factorCount).length = t.factorCount := by
  obtain ⟨d, hd, -⟩ := (anova_eq_ok_iff ht).mp h
  exact ((Design.ofTable_eq_ok_iff t settings d).mp hd).1.length_names

/-- Results of designs with equally many factors are compared source by source. -/
theorem Design.forall₂_results {d d' : Design ℝ} (hcount : d'.factorCount = d.factorCount)
    {settings settings' : Settings} {P : SourceResult ℝ → SourceResult ℝ → Prop}
    (h : ∀ s ∈ Source.all d.factorCount, P (d.resultOf settings s) (d'.resultOf settings' s)) :
    List.Forall₂ P (d.table settings).results (d'.table settings').results := by
  rw [Design.table, Design.table, hcount, List.forall₂_map_left_iff, List.forall₂_map_right_iff,
    List.forall₂_same]
  exact h

namespace Rewriting

variable {t t' : ObservationTable ℝ} (w : Rewriting t t') (ht : t.Built) (ht' : t'.Built)
  {settings settings' : Settings}

include w ht ht'

/-- The run on a rewritten table succeeds if the run on the table does. -/
theorem exists_run
    (hnames : (settings'.resolveNames t.factorCount).length =
      (settings.resolveNames t.factorCount).length)
    (hduplicates : settings'.duplicates = settings.duplicates) {table : AnovaTable ℝ}
    (h : anova t settings = .ok table) : ∃ d d', Design.ofTable t settings = .ok d ∧
      Design.ofTable t' settings' = .ok d' ∧ table = d.table settings ∧
        anova t' settings' = .ok (d'.table settings') := by
  obtain ⟨d, hd, rfl⟩ := (anova_eq_ok_iff ht).mp h
  obtain ⟨d', hd'⟩ := w.exists_ofTable ht ht' hnames hduplicates hd
  exact ⟨d, d', hd, hd', rfl, anova_eq_ok ht' hd'⟩

variable {d d' : Design ℝ} (h : Design.ofTable t settings = .ok d)
  (h' : Design.ofTable t' settings' = .ok d')

include h h'

/-- Where the levels that occur keep their names, they stand in the same list. -/
theorem levels_eq {f : ℕ} (hf : f < t.factorCount)
    (hname : ∀ l, Occurs t.rows f l → w.level f l = l) :
    (d'.factor (w.factor f)).levels = (d.factor f).levels := by
  have hf' : w.factor f < t'.factorCount := w.factorCount_eq ▸ (w.factor_lt f).mpr hf
  rw [Design.levels_ofTable ht h hf, Design.levels_ofTable ht' h' hf', columnLevels, columnLevels]
  refine ascending_congr fun m => ?_
  rw [← mem_ascending, ← columnLevels, ← mem_ascending (l := t.averages.filterMap _),
    ← columnLevels, ← Design.levels_ofTable ht h hf, ← Design.levels_ofTable ht' h' hf',
    Design.mem_levels_ofTable ht h hf, Design.mem_levels_ofTable ht' h' hf', w.occurs_iff]
  constructor
  · rintro ⟨l, hl, rfl⟩
    rwa [hname l hl]
  · intro hm
    exact ⟨m, hm, hname m hm⟩

/-- And so they keep their places. -/
theorem level_relabelling {f : ℕ} (hf : f < t.factorCount)
    (hname : ∀ l, Occurs t.rows f l → w.level f l = l) {i : ℕ} (hi : i < d.levelCount f) :
    (w.relabelling ht ht' h h').level f i = i := by
  show newPlace (w.level f) (d.factor f).levels (d'.factor (w.factor f)).levels i = i
  rw [w.levels_eq ht ht' h h' hf hname]
  exact Renames.newPlace_self (w.renames_levels ht ht' h h' hf).nodup
    (fun l hl => hname l ((Design.mem_levels_ofTable ht h hf).mp hl)) hi

end Rewriting

/-! ## A table to rewrite -/

/-- Two subjects in one group and one in another, each measured on three occasions. -/
noncomputable def threeOccasions : ObservationTable ℝ :=
  wholeTable 2 [(1, [0, 0], 2), (1, [0, 1], 5), (1, [0, 2], 3), (2, [0, 0], 4), (2, [0, 1], 4),
    (2, [0, 2], 9), (3, [1, 0], 1), (3, [1, 1], 7), (3, [1, 2], 6)]

theorem built_threeOccasions : threeOccasions.Built := built_wholeTable (by decide) (by decide)

theorem ofTable_threeOccasions : Design.ofTable threeOccasions {} =
    .ok (Design.tableCoding threeOccasions {}).toDesign := rfl

end SplitPlot
