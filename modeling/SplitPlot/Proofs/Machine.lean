import Mathlib
import SplitPlot.Proofs.Totality
import SplitPlot.Proofs.Words

/-!
# What a machine can keep from its result

On a machine the analysis of a design is not total.  It reaches its table exactly if the sums of
squared weights fit in 64 bits (`Design.NormsFit`) and every probability in the table is there
(`anovaOnMachine_total_complete`).  Nothing else keeps a design from its table, and the table is
complete.

The first is a matter of size, and designs with no more than ten thousand cells within subjects have
it (`Design.Accepted.normsFit_of_withinCellCount_le`).  The second is one of rounding.  A
probability is missing where the incomplete beta function is flipped for ever, which never happens
in exact arithmetic (`anovaOnMachine_exact`), and no property of the design rules it out in rounded
arithmetic.
-/

namespace SplitPlot

variable {K : Type} [Scalar K]

/-! ## The sums of squared weights -/

/-- Axes that are dropped leave no more cells. -/
theorem cellCount_droppedShape_le : ∀ {axes : List FlaggedAxis}, (∀ axis ∈ axes, 0 < axis.1) →
    cellCount (droppedShape axes) ≤ cellCount (axes.map (·.1))
  | [], _ => le_rfl
  | (n, kept) :: axes, h => by
    obtain ⟨hn, haxes⟩ := List.forall_mem_cons.mp h
    have hle := cellCount_droppedShape_le haxes
    rw [List.map_cons, cellCount_cons, droppedShape]
    cases kept with
    | true => exact Nat.mul_le_mul_left n hle
    | false => exact hle.trans (Nat.le_mul_of_pos_left _ hn)

namespace Design

/-- The sums of squared weights of all sources within subjects fit in 64 bits. -/
def NormsFit (d : Design K) : Prop :=
  ∀ s, d.kindOf s = .within → ∀ combination ∈ multiIndices (contrastShape (d.levelsWithin s)),
    squaredNorm (d.levelsWithin s) combination < 2 ^ 63

variable {d : Design K}

omit [Scalar K] in
theorem levelsWithin_eq (s : Source) :
    d.levelsWithin s = droppedShape (d.flags d.withinFactors s) :=
  d.map_getD_axesOf d.withinFactors s

omit [Scalar K] in
/-- A check of the sums of a source finds nothing or an overflow. -/
theorem exists_overflow_of_checkNorms {s : Source} {f : Fault} (h : d.checkNorms s = .error f) :
    ∃ operation, f = .overflow operation := by
  obtain ⟨combination, -, herror⟩ := exists_eq_error_of_forM h
  obtain ⟨hok, -⟩ | ⟨operation, hoverflow⟩ := isWordOf_wordNorm (d.levelsWithin s) combination
  · rw [hok] at herror
    cases herror
  · rw [hoverflow] at herror
    cases herror
    exact ⟨operation, rfl⟩

namespace Accepted

variable (hd : d.Accepted)

include hd

theorem levelsWithin_bounds (s : Source) :
    ∀ n ∈ d.levelsWithin s, 0 < n ∧ n ≤ maxWithinLevels := by
  intro n hn
  rw [levelsWithin_eq, droppedShape] at hn
  obtain ⟨_, haxis, rfl⟩ := List.mem_map.mp hn
  obtain ⟨f, hf, rfl⟩ := List.mem_map.mp (List.mem_filter.mp haxis).1
  exact hd.levelCount_within hf

theorem checkNorms_eq_ok_iff (s : Source) : d.checkNorms s = .ok () ↔
    ∀ combination ∈ multiIndices (contrastShape (d.levelsWithin s)),
      squaredNorm (d.levelsWithin s) combination < 2 ^ 63 := by
  refine forM_eq_ok_iff.trans (forall₂_congr fun combination hcombination => ?_)
  constructor
  · intro hok
    by_contra hlarge
    obtain ⟨operation, herror⟩ := exists_wordNorm_eq_error (not_lt.mp hlarge)
    rw [herror] at hok
    cases hok
  · intro hfits
    rw [wordNorm_eq_ok (hd.levelsWithin_bounds s) hcombination hfits]
    rfl

/-- The sums behind the prepared scores fit, or some operation on them overflows. -/
theorem checkNorms_prepared (settings : Settings) :
    (d.NormsFit ∧ (d.prepared settings ∅).checkNorms = .ok ()) ∨
      ¬ d.NormsFit ∧ ∃ operation,
        (d.prepared settings ∅).checkNorms = .error (.overflow operation) := by
  have hiff : (d.prepared settings ∅).checkNorms = .ok () ↔ d.NormsFit :=
    forM_eq_ok_iff.trans <| List.forall_mem_map.trans <| forall_congr' fun s =>
      imp_congr hd.mem_sourcesWithin_iff (hd.checkNorms_eq_ok_iff s)
  cases hcheck : (d.prepared settings ∅).checkNorms with
  | ok u => exact .inl ⟨hiff.mp hcheck, rfl⟩
  | error f =>
    obtain ⟨scores, -, herror⟩ := exists_eq_error_of_forM hcheck
    obtain ⟨operation, rfl⟩ := exists_overflow_of_checkNorms herror
    refine .inr ⟨fun hfits => ?_, operation, rfl⟩
    rw [hiff.mpr hfits] at hcheck
    cases hcheck

/-- With no more than ten thousand cells within subjects the sums fit. -/
theorem normsFit_of_withinCellCount_le (h : d.withinCellCount ≤ 10 ^ 4) : d.NormsFit := by
  intro s _ combination hcombination
  refine squaredNorm_lt_of_cellCount_le (hd.levelsWithin_bounds s) hcombination (le_trans ?_ h)
  rw [levelsWithin_eq, Coding.withinCellCount, Coding.withinShape, ← d.map_fst_flags _ s]
  refine cellCount_droppedShape_le fun axis haxis => ?_
  obtain ⟨f, hf, rfl⟩ := List.mem_map.mp haxis
  exact (hd.levelCount_within hf).1

end Accepted

end Design

/-! ## The cells -/

namespace Design.Accepted

variable {d : Design K} (hd : d.Accepted)

include hd

theorem betweenCellCount_le : d.betweenCellCount ≤ d.subjectCount := by
  have hsub : List.range d.betweenCellCount ⊆ d.subjectCells := fun cell hcell =>
    hd.mem_subjectCells (List.mem_range.mp hcell)
  have hle := (List.nodup_range.subperm hsub).length_le
  rwa [List.length_range, hd.length_subjectCells] at hle

theorem mul_withinCellCount_le : d.subjectCount * d.withinCellCount ≤ d.observations.length := by
  let seen := (d.observations.map fun o => (o.subject, o.levelsAt d.withinFactors)).toFinset
  have hsub : Finset.range d.subjectCount ×ˢ positions d.withinShape ⊆ seen := by
    rintro ⟨s, index⟩ h
    obtain ⟨hs, hindex⟩ := Finset.mem_product.mp h
    obtain ⟨o, ho, rfl, rfl⟩ := hd.complete.observed s (Finset.mem_range.mp hs) index
      (mem_positions.mp hindex)
    exact List.mem_toFinset.mpr (List.mem_map_of_mem ho)
  calc d.subjectCount * d.withinCellCount
      = (Finset.range d.subjectCount ×ˢ positions d.withinShape).card := by
        rw [Finset.card_product, Finset.card_range, card_positions, Coding.withinCellCount]
    _ ≤ seen.card := Finset.card_le_card hsub
    _ ≤ d.observations.length := (List.toFinset_card_le _).trans_eq (List.length_map _)

end Design.Accepted

theorem ObservationTable.length_averages_le (t : ObservationTable K) :
    t.averages.length ≤ t.rows.length := by
  have hkeys := congrArg List.length t.map_key_averages
  rw [List.length_map] at hkeys
  rw [hkeys, ← t.rows.length_map Observation.key]
  exact ((nodup_ascending _).subperm fun _ => mem_ascending.mp).length_le

/-- A design has no more cells than its table has rows. -/
theorem Design.cells_le_rows {t : ObservationTable K} (ht : t.Built) {settings : Settings}
    {d : Design K} (h : Design.ofTable t settings = .ok d) :
    d.betweenCellCount * d.withinCellCount ≤ t.rows.length := by
  have hd := Design.accepted_of_ofTable ht h
  obtain ⟨hadm, -, hcomplete⟩ := (Design.ofTable_eq_ok_iff t settings d).mp h
  obtain ⟨-, rfl⟩ := ((Design.coherent_tableCoding ht hadm).complete_eq_ok_iff d).mp hcomplete
  calc _ ≤ _ := Nat.mul_le_mul_right _ hd.betweenCellCount_le
    _ ≤ (Design.tableCoding t settings).observations.length := hd.mul_withinCellCount_le
    _ = t.averages.length := List.length_map _
    _ ≤ t.rows.length := t.length_averages_le

/-! ## The probabilities -/

omit [Scalar K] in
/-- The probabilities of a table are all there, or the first that is not is found. -/
theorem AnovaTable.checkProbabilities_eq (table : AnovaTable K) :
    ((∀ r ∈ table.results, r.test.p ≠ none) ∧ table.checkProbabilities = .ok ()) ∨
      (∃ r ∈ table.results, r.test.p = none) ∧
        table.checkProbabilities = .error .endlessRecursion := by
  have hiff : table.checkProbabilities = .ok () ↔ ∀ r ∈ table.results, r.test.p ≠ none := by
    refine forM_eq_ok_iff.trans (forall₂_congr fun r _ => ?_)
    cases r.test.p with
    | none => exact iff_of_false nofun fun h => h rfl
    | some p => exact iff_of_true rfl (Option.some_ne_none p)
  cases hcheck : table.checkProbabilities with
  | ok u => exact .inl ⟨hiff.mp hcheck, rfl⟩
  | error f =>
    obtain ⟨r, hr, herror⟩ := exists_eq_error_of_forM hcheck
    cases hp : r.test.p with
    | some p =>
      rw [hp] at herror
      cases herror
    | none =>
      rw [hp] at herror
      cases herror
      exact .inr ⟨⟨r, hr, hp⟩, rfl⟩

/-! ## The analysis -/

section Analysis

variable {t : ObservationTable K} (ht : t.Built) {settings : Settings} {d : Design K}
  (h : Design.ofTable t settings = .ok d)

include ht h

/-- The analysis of a design on a machine is its table, if the table passes the two checks. -/
theorem anovaOnMachine_eq : anovaOnMachine t settings = (do
    Failure.ofFault (d.prepared settings ∅).checkNorms
    Failure.ofFault (d.table settings).checkProbabilities
    return d.table settings) := by
  have hrun : (d.prepared settings ∅).run = .ok (d.table settings) :=
    (Design.accepted_of_ofTable ht h).run_eq_ok settings
  rw [anovaOnMachine, Analysis.ofTable_eq_ok ht h, ok_bind, hrun]
  rfl

/-- The analysis of a design on a machine has one of three outcomes. -/
theorem anovaOnMachine_cases :
    (anovaOnMachine t settings = .ok (d.table settings) ∧ d.NormsFit ∧
      ∀ r ∈ (d.table settings).results, r.test.p ≠ none) ∨
    (∃ operation, anovaOnMachine t settings = .error (.fault (.overflow operation))) ∧
      ¬ d.NormsFit ∨
    anovaOnMachine t settings = .error (.fault .endlessRecursion) ∧ d.NormsFit ∧
      ∃ r ∈ (d.table settings).results, r.test.p = none := by
  have hd := Design.accepted_of_ofTable ht h
  rw [anovaOnMachine_eq ht h]
  obtain ⟨hfits, hnorms⟩ | ⟨hlarge, operation, hnorms⟩ := hd.checkNorms_prepared settings
  · rw [hnorms]
    obtain ⟨hall, hcheck⟩ | ⟨hmissing, hcheck⟩ := (d.table settings).checkProbabilities_eq
    · rw [hcheck]
      exact .inl ⟨rfl, hfits, hall⟩
    · rw [hcheck]
      exact .inr (.inr ⟨rfl, hfits, hmissing⟩)
  · rw [hnorms]
    exact .inr (.inl ⟨⟨operation, rfl⟩, hlarge⟩)

end Analysis

/-- In exact arithmetic the sums alone decide. -/
theorem anovaOnMachine_exact {t : ObservationTable ℝ} (ht : t.Built) {settings : Settings}
    {d : Design ℝ} (h : Design.ofTable t settings = .ok d) :
    anovaOnMachine t settings = .ok (d.table settings) ↔ d.NormsFit := by
  obtain ⟨hok, hfits, -⟩ | ⟨⟨operation, herror⟩, hlarge⟩ | ⟨-, -, r, hr, hmissing⟩ :=
    anovaOnMachine_cases ht h
  · exact iff_of_true hok hfits
  · rw [herror]
    exact iff_of_false (fun heq => nomatch heq) hlarge
  · obtain ⟨s, -, rfl⟩ := List.mem_map.mp hr
    obtain ⟨p, hp⟩ := d.exists_p_resultOf settings s
    exact absurd (hp.symm.trans hmissing) (Option.some_ne_none p)

/-- **An analysis on a machine is complete, and total but for two limits.**  What keeps a table from
being a design keeps it from being analysed.  A design is prepared, and its run is at no fault:
every effect and all scores that are asked for are there, no effect is stored twice, and the shapes
fit.  The table has one result for each set of factors that is not empty, in ascending order, and
finds it under its source and nothing under any other.  The cells that are counted on the way are no
more than the rows.

The machine reaches this table exactly if the sums of squared weights fit in 64 bits and no
probability is missing.  If some sum does not fit, an operation overflows.  If all of them fit and a
probability is missing, a recursion does not end.  With no more than ten thousand cells within
subjects all sums fit.  A probability is missing where a test takes the tail of the F distribution
at a statistic for which the incomplete beta function is flipped for ever, and nowhere else if a
number that is taken from one three times is what it was after the first time. -/
theorem anovaOnMachine_total_complete (t : ObservationTable K) (ht : t.Built)
    (settings : Settings) :
    (∀ e, Design.ofTable t settings = .error e →
      anovaOnMachine t settings = .error (.design e)) ∧
    ∀ d, Design.ofTable t settings = .ok d →
      (∃ a, Analysis.ofTable t settings = .ok a ∧ a.run = .ok (d.table settings)) ∧
      (d.table settings).Complete t.factorCount ∧
      d.betweenCellCount * d.withinCellCount ≤ t.rows.length ∧
      (anovaOnMachine t settings = .ok (d.table settings) ∧ d.NormsFit ∧
          (∀ r ∈ (d.table settings).results, r.test.p ≠ none) ∨
        (∃ operation, anovaOnMachine t settings = .error (.fault (.overflow operation))) ∧
          ¬ d.NormsFit ∨
        anovaOnMachine t settings = .error (.fault .endlessRecursion) ∧ d.NormsFit ∧
          ∃ r ∈ (d.table settings).results, r.test.p = none) ∧
      (d.withinCellCount ≤ 10 ^ 4 → d.NormsFit) ∧
      (∀ r ∈ (d.table settings).results, r.test.EndlessTail → r.test.p = none) ∧
      (ComplementsRepeat K →
        ∀ r ∈ (d.table settings).results, r.test.p = none → r.test.EndlessTail) := by
  refine ⟨fun e he => ?_, fun d hofTable => ?_⟩
  · rw [anovaOnMachine, Analysis.ofTable, he]
    rfl
  · have hd := Design.accepted_of_ofTable ht hofTable
    have hmissing : ∀ r ∈ (d.table settings).results, r.test.p = none ↔ r.test.TailGivenUp := by
      intro r hr
      obtain ⟨s, -, rfl⟩ := List.mem_map.mp hr
      exact Design.p_resultOf_eq_none_iff settings s
    exact ⟨⟨_, Analysis.ofTable_eq_ok ht hofTable, hd.run_eq_ok settings⟩,
      Design.factorCount_ofTable ht hofTable ▸ hd.complete_table settings,
      Design.cells_le_rows ht hofTable, anovaOnMachine_cases ht hofTable,
      hd.normsFit_of_withinCellCount_le,
      fun r hr hendless => (hmissing r hr).mpr hendless.tailGivenUp,
      fun hrepeat r hr hnone => ((hmissing r hr).mp hnone).endlessTail hrepeat⟩

/-- The measurements have three results on a machine.  Only a probability that does not end is
missing there.  The result of both factors is found under their source, and under the source of a
third factor there is none. -/
theorem anovaOnMachine_measuredTwice : measuredTwice.Built ∧
    ∃ d, Design.ofTable measuredTwice {} = .ok d ∧
      anovaOnMachine measuredTwice {} = .ok (d.table {}) ∧ (d.table {}).results.length = 3 ∧
      (∀ r ∈ (d.table {}).results, r.test.p = none ↔ r.test.EndlessTail) ∧
      (∃ r ∈ (d.table {}).results, (d.table {}).bySource? (.span [0, 1]) = some r) ∧
      (d.table {}).bySource? (.span [2]) = none := by
  have hbuilt : measuredTwice.Built := built_wholeTable (by decide) (by decide)
  have hofTable : Design.ofTable measuredTwice {} =
      .ok (Design.tableCoding measuredTwice {}).toDesign := rfl
  have hcells : (Design.tableCoding measuredTwice {}).toDesign.withinCellCount ≤ 10 ^ 4 := by
    decide
  obtain ⟨-, hdesign⟩ := anovaOnMachine_total_complete measuredTwice hbuilt {}
  obtain ⟨-, hcomplete, -, -, hfits, hendless, hmissing⟩ := hdesign _ hofTable
  obtain ⟨r, hr, hfound, -⟩ := hcomplete.bySource?_eq_some (.span [0, 1]) (by decide) (by decide)
  exact ⟨hbuilt, _, hofTable, (anovaOnMachine_exact hbuilt hofTable).mpr (hfits hcells),
    hcomplete.length_results,
    fun r hr => ⟨hmissing complementsRepeat_real r hr, hendless r hr⟩,
    ⟨r, hr, hfound⟩, hcomplete.bySource?_eq_none (.span [2]) (by decide)⟩

end SplitPlot
