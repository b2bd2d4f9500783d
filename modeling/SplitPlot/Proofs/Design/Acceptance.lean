import Mathlib
import SplitPlot.Proofs.Design.Encoding
import SplitPlot.Proofs.Exact

/-!
# Which tables are designs

`Design.ofTable` accepts a table exactly when it is the record of a factorial experiment: it has
rows, a number of factors that a source can hold and as many names, no replicates where replicates
are to be rejected, and its factors can be split so that the rows are crossed (`Crossed`).  This is
`exists_ofTable_eq_ok_iff`.  The split is not unique, since a factor with one level can stand on
either side; the one that the design reports is always the same, with the factors that vary on the
side of those within subjects.

Neither the condition nor the classification mentions an order of levels, so neither depends on
which level happens to come first.

`Design.Accepted` collects what the rest of the theory needs to know of an accepted design.
-/

namespace SplitPlot

variable {K : Type} [Scalar K]

namespace Design

/-! ## The stages of the construction -/

omit [Scalar K] in
theorem factorNames?_eq_ok_iff (t : ObservationTable K) (settings : Settings)
    (names : List String) :
    factorNames? t settings = .ok names ↔
      t.rows ≠ [] ∧ 1 ≤ t.factorCount ∧ t.factorCount ≤ 16 ∧
        (settings.resolveNames t.factorCount).length = t.factorCount ∧
        names = settings.resolveNames t.factorCount := by
  rw [factorNames?]
  have hempty : t.isEmpty = true ↔ t.rows = [] := List.isEmpty_iff
  split
  · next h => simp [hempty.mp h]
  · next h =>
    have hne : t.rows ≠ [] := fun hrows => h (hempty.mpr hrows)
    split
    · next h0 => simp [h0]
    · next h0 =>
      split
      · next h16 =>
        refine iff_of_false (fun h' => by cases h') fun h' => ?_
        exact absurd h'.2.2.1 (not_le.mpr h16)
      · next h16 =>
        split
        · next hlen => exact iff_of_false (fun h' => by cases h') fun h' => hlen h'.2.2.2.1
        · next hlen =>
          have h1 : 1 ≤ t.factorCount := Nat.one_le_iff_ne_zero.mpr h0
          refine ⟨fun h' => ?_, fun h' => congrArg _ h'.2.2.2.2.symm⟩
          exact ⟨hne, h1, not_lt.mp h16, not_not.mp hlen, (Except.ok.inj h').symm⟩

/-- The checks that come before the rows are looked at as a whole. -/
structure Admissible (t : ObservationTable K) (settings : Settings) : Prop where
  rows_ne_nil : t.rows ≠ []
  one_le_factorCount : 1 ≤ t.factorCount
  factorCount_le : t.factorCount ≤ 16
  length_names : (settings.resolveNames t.factorCount).length = t.factorCount
  nodup_of_reject : settings.duplicates = .reject → (t.rows.map Observation.key).Nodup

/-- The coding that a table is read as. -/
def tableCoding (t : ObservationTable K) (settings : Settings) : Coding K :=
  rowCoding t.averages (settings.resolveNames t.factorCount)

/-- A table is a design exactly when the first checks find nothing, no factor that varies has more
than ten levels, and the coding is complete. -/
theorem ofTable_eq_ok_iff (t : ObservationTable K) (settings : Settings) (d : Design K) :
    ofTable t settings = .ok d ↔
      Admissible t settings ∧
        (∀ f < t.factorCount,
          variesWithin t.averages (allLevels t.averages t.factorCount) f = true →
            (columnLevels t.averages f).length ≤ 10) ∧
        (tableCoding t settings).complete = .ok d := by
  rw [ofTable, bind_eq_ok_iff]
  constructor
  · rintro ⟨names, hnames, hrest⟩
    obtain ⟨rows, hrows, hrest⟩ := bind_eq_ok_iff.mp hrest
    obtain ⟨factors, hfactors, hrest⟩ := bind_eq_ok_iff.mp hrest
    obtain ⟨hne, h1, h16, hlen, rfl⟩ := (factorNames?_eq_ok_iff t settings names).mp hnames
    obtain ⟨rfl, hdup⟩ := (t.deduplicate_eq_ok_iff settings.duplicates rows).mp hrows
    obtain ⟨hsmall, rfl⟩ := (classifyFactors_eq_ok_iff _ _ factors).mp hfactors
    rw [hlen] at hsmall
    exact ⟨⟨hne, h1, h16, hlen, hdup⟩, hsmall, hrest⟩
  · rintro ⟨⟨hne, h1, h16, hlen, hdup⟩, hsmall, hcomplete⟩
    refine ⟨_, (factorNames?_eq_ok_iff t settings _).mpr ⟨hne, h1, h16, hlen, rfl⟩, ?_⟩
    refine bind_eq_ok_iff.mpr ⟨_, (t.deduplicate_eq_ok_iff _ _).mpr ⟨rfl, hdup⟩, ?_⟩
    refine bind_eq_ok_iff.mpr ⟨_, (classifyFactors_eq_ok_iff _ _ _).mpr ⟨?_, rfl⟩, hcomplete⟩
    rw [hlen]
    exact hsmall

/-! ## Averaged rows of a built table -/

section Built

variable {t : ObservationTable K}

theorem keysWithin_averages : KeysWithin t.averages t.rows :=
  keysWithin_of_map_key_subset fun _ => ObservationTable.mem_map_key_averages.mp

theorem keysWithin_rows : KeysWithin t.rows t.averages :=
  keysWithin_of_map_key_subset fun _ => ObservationTable.mem_map_key_averages.mpr

theorem varies_averages_iff {f : ℕ} : Varies t.averages f ↔ Varies t.rows f :=
  ⟨.mono keysWithin_averages, .mono keysWithin_rows⟩

theorem length_levels_averages (ht : t.Built) :
    ∀ r ∈ t.averages, r.levels.length = t.factorCount := by
  intro r hr
  obtain ⟨r', hr', -, hlevels⟩ := keysWithin_averages r hr
  rw [← hlevels, ht.length_levels hr']

variable {settings : Settings}

theorem coherent_tableCoding (ht : t.Built) (hadm : Admissible t settings) :
    (tableCoding t settings).Coherent :=
  coherent_rowCoding (fun r hr => (length_levels_averages ht r hr).trans hadm.length_names.symm)
    t.nodup_key_averages

theorem factorCount_tableCoding (hadm : Admissible t settings) :
    (tableCoding t settings).factorCount = t.factorCount := by
  rw [tableCoding, factorCount_rowCoding, hadm.length_names]

theorem within_factor_tableCoding (hadm : Admissible t settings) {f : ℕ}
    (hf : f < t.factorCount) : ((tableCoding t settings).factor f).within =
      variesWithin t.averages (allLevels t.averages t.factorCount) f := by
  rw [tableCoding, factor_rowCoding (hadm.length_names.symm ▸ hf)]
  show variesWithin t.averages (allLevels t.averages _) f = _
  rw [hadm.length_names]

theorem union_factors (hadm : Admissible t settings) :
    (tableCoding t settings).betweenFactors.toFinset ∪
      (tableCoding t settings).withinFactors.toFinset = Finset.range t.factorCount := by
  rw [Coding.union_factors, factorCount_tableCoding hadm]

/-- A table with a design is crossed by the factors that the design reports. -/
theorem crossed_of_ofTable (ht : t.Built) {d : Design K} (h : ofTable t settings = .ok d) :
    Crossed t.averages d.betweenFactors.toFinset d.withinFactors.toFinset := by
  obtain ⟨hadm, hsmall, hcomplete⟩ := (ofTable_eq_ok_iff t settings d).mp h
  have hcoh := coherent_tableCoding ht hadm
  obtain ⟨hcomp, rfl⟩ := (hcoh.complete_eq_ok_iff d).mp hcomplete
  refine (isComplete_rowCoding_iff (fun r hr => ?_) fun f hf => ?_).mp hcomp
  · exact (length_levels_averages ht r hr).trans hadm.length_names.symm
  · have hf' := lt_of_mem_withinFactors f hf
    rw [hadm.length_names] at hf'
    refine hsmall f hf' ?_
    rw [← within_factor_tableCoding hadm hf']
    exact (Coding.mem_withinFactors.mp hf).2

/-- An accepted design takes exactly the factors that vary for factors within subjects. -/
theorem within_factor_iff_varies (ht : t.Built) {d : Design K} (h : ofTable t settings = .ok d)
    {f : ℕ} (hf : f < t.factorCount) : (d.factor f).within = true ↔ Varies t.rows f := by
  obtain ⟨hadm, -, hcomplete⟩ := (ofTable_eq_ok_iff t settings d).mp h
  have hcrossed := crossed_of_ofTable ht h
  obtain ⟨-, rfl⟩ := ((coherent_tableCoding ht hadm).complete_eq_ok_iff d).mp hcomplete
  rw [← varies_averages_iff, ← hcrossed.variesWithin_iff_varies (union_factors hadm)
    (length_levels_averages ht) t.nodup_key_averages, ← within_factor_tableCoding hadm hf]
  rfl

/-- A factor within subjects has at least two levels. -/
theorem two_le_levelCount (ht : t.Built) {d : Design K} (h : ofTable t settings = .ok d) {f : ℕ}
    (hf : f ∈ d.withinFactors) : 2 ≤ d.levelCount f := by
  obtain ⟨hadm, -, hcomplete⟩ := (ofTable_eq_ok_iff t settings d).mp h
  obtain ⟨hlt, hwithin⟩ := Coding.mem_withinFactors.mp hf
  have hlen := length_levels_averages ht
  have hcount : d.factorCount = t.factorCount ∧
      ∀ f < t.factorCount, d.levelCount f = (columnLevels t.averages f).length := by
    obtain ⟨-, rfl⟩ := ((coherent_tableCoding ht hadm).complete_eq_ok_iff d).mp hcomplete
    exact ⟨factorCount_tableCoding hadm,
      fun f hf => levelCount_rowCoding (hadm.length_names.symm ▸ hf)⟩
  rw [hcount.1] at hlt
  -- some subject has two levels of the factor, and each has a place in the list of levels
  obtain ⟨r, hr, q, hq, -, hne⟩ :=
    varies_averages_iff.mpr ((within_factor_iff_varies ht h hlt).mp hwithin)
  have hgetr := List.getElem?_eq_getElem (l := r.levels) (i := f) (hlen r hr ▸ hlt)
  have hgetq := List.getElem?_eq_getElem (l := q.levels) (i := f) (hlen q hq ▸ hlt)
  have hmemr := mem_columnLevels.mpr ⟨r, hr, hgetr⟩
  have hplaces := mt (List.idxOf_inj hmemr).mp fun heq => hne (by rw [hgetr, hgetq, heq])
  have hplacer := List.idxOf_lt_length_of_mem hmemr
  have hplaceq := List.idxOf_lt_length_of_mem (mem_columnLevels.mpr ⟨q, hq, hgetq⟩)
  rw [hcount.2 f hlt]
  omega

open Classical in
/-- A crossed table that passes the first checks has a design. -/
theorem ofTable_of_crossed (ht : t.Built) (hadm : Admissible t settings)
    {between within : Finset ℕ} (hcover : between ∪ within = Finset.range t.factorCount)
    (hc : Crossed t.rows between within) :
    ofTable t settings = .ok (tableCoding t settings).toDesign := by
  have hc' : Crossed t.averages between within := hc.congr keysWithin_rows keysWithin_averages
  have hlen := length_levels_averages ht
  have hkeys := t.nodup_key_averages
  have hwithin : ∀ f < t.factorCount,
      ((tableCoding t settings).factor f).within = true ↔ Varies t.averages f := fun f hf => by
    rw [within_factor_tableCoding hadm hf, hc'.variesWithin_iff_varies hcover hlen hkeys]
  have hsmall : ∀ f < t.factorCount, Varies t.averages f →
      (columnLevels t.averages f).length ≤ 10 := fun f hf hv => by
    rw [length_columnLevels]
    refine hc'.levels_le f ((Finset.mem_union.mp ?_).resolve_left fun hfb => hc'.constant f hfb hv)
    exact hcover ▸ Finset.mem_range.mpr hf
  -- the split that the coding reports is the one by varying
  have hb : (tableCoding t settings).betweenFactors.toFinset =
      (Finset.range t.factorCount).filter fun f => ¬ Varies t.averages f := by
    ext f
    rw [List.mem_toFinset, Coding.mem_betweenFactors, factorCount_tableCoding hadm,
      Finset.mem_filter, Finset.mem_range]
    refine and_congr_right fun hf => ?_
    rw [← hwithin f hf, Bool.not_eq_true]
  have hw : (tableCoding t settings).withinFactors.toFinset =
      (Finset.range t.factorCount).filter fun f => Varies t.averages f := by
    ext f
    rw [List.mem_toFinset, Coding.mem_withinFactors, factorCount_tableCoding hadm,
      Finset.mem_filter, Finset.mem_range]
    exact and_congr_right fun hf => hwithin f hf
  refine (ofTable_eq_ok_iff t settings _).mpr ⟨hadm, fun f hf hv => ?_, ?_⟩
  · exact hsmall f hf ((hc'.variesWithin_iff_varies hcover hlen hkeys).mp hv)
  · refine ((coherent_tableCoding ht hadm).complete_eq_ok_iff _).mpr ⟨?_, rfl⟩
    refine (isComplete_rowCoding_iff (fun r hr => ?_) fun f hf => ?_).mpr ?_
    · exact (hlen r hr).trans hadm.length_names.symm
    · have hf' := lt_of_mem_withinFactors f hf
      rw [hadm.length_names] at hf'
      exact hsmall f hf' ((hwithin f hf').mp (Coding.mem_withinFactors.mp hf).2)
    · show Crossed _ (tableCoding t settings).betweenFactors.toFinset
        (tableCoding t settings).withinFactors.toFinset
      rw [hb, hw]
      exact hc'.varying hcover hlen

end Built

/-! ## Exact acceptance -/

/-- **Exact acceptance.**  A table that was built by offering rows is accepted exactly when it has
rows, between one and sixteen factors, as many names, no replicates where they are to be rejected,
and factors that can be split so that the rows are crossed.  The factors within subjects of its
design are then, in ascending order, those at which some subject has rows at two different levels,
and the factors between subjects are the others. -/
theorem exists_ofTable_eq_ok_iff (t : ObservationTable K) (ht : t.Built) (settings : Settings) :
    ((∃ d, ofTable t settings = .ok d) ↔
      t.rows ≠ [] ∧ 1 ≤ t.factorCount ∧ t.factorCount ≤ 16 ∧
        (settings.resolveNames t.factorCount).length = t.factorCount ∧
        (settings.duplicates = .reject → (t.rows.map fun r => (r.subject, r.levels)).Nodup) ∧
        ∃ between within : Finset ℕ, Disjoint between within ∧
          between ∪ within = Finset.range t.factorCount ∧ Crossed t.rows between within) ∧
    ∀ d, ofTable t settings = .ok d →
      (d.withinFactors.Pairwise (· < ·) ∧
        ∀ f, f ∈ d.withinFactors ↔ f < t.factorCount ∧ Varies t.rows f) ∧
      (d.betweenFactors.Pairwise (· < ·) ∧
        ∀ f, f ∈ d.betweenFactors ↔ f < t.factorCount ∧ ¬ Varies t.rows f) := by
  have hnodup : (t.rows.map fun r => (r.subject, r.levels)).Nodup ↔
      (t.rows.map Observation.key).Nodup := by
    have hcomp : t.rows.map Observation.key =
        (t.rows.map fun r => (r.subject, r.levels)).map fun e => e.1 :: e.2 := by
      rw [List.map_map]
      rfl
    rw [hcomp, List.nodup_map_iff fun e e' h => Prod.ext (List.cons.inj h).1 (List.cons.inj h).2]
  refine ⟨⟨?_, ?_⟩, fun d hd => ?_⟩
  · rintro ⟨d, hd⟩
    obtain ⟨hadm, -, hcomplete⟩ := (ofTable_eq_ok_iff t settings d).mp hd
    have hcrossed := crossed_of_ofTable ht hd
    obtain ⟨-, rfl⟩ := ((coherent_tableCoding ht hadm).complete_eq_ok_iff d).mp hcomplete
    exact ⟨hadm.rows_ne_nil, hadm.one_le_factorCount, hadm.factorCount_le, hadm.length_names,
      fun h => hnodup.mpr (hadm.nodup_of_reject h), _, _, Coding.disjoint_factors _,
      union_factors hadm, hcrossed.congr keysWithin_averages keysWithin_rows⟩
  · rintro ⟨hne, h1, h16, hnames, hdup, between, within, -, hcover, hc⟩
    have hadm : Admissible t settings := ⟨hne, h1, h16, hnames, fun h => hnodup.mp (hdup h)⟩
    exact ⟨_, ofTable_of_crossed ht hadm hcover hc⟩
  · have hwithin := fun f => within_factor_iff_varies (f := f) ht hd
    obtain ⟨hadm, -, hcomplete⟩ := (ofTable_eq_ok_iff t settings d).mp hd
    have hcount : d.factorCount = t.factorCount := by
      obtain ⟨-, rfl⟩ := ((coherent_tableCoding ht hadm).complete_eq_ok_iff d).mp hcomplete
      exact factorCount_tableCoding hadm
    refine ⟨⟨List.pairwise_lt_range.filter _, fun f => ?_⟩,
      List.pairwise_lt_range.filter _, fun f => ?_⟩
    · rw [Coding.mem_withinFactors, hcount]
      exact and_congr_right fun hf => hwithin f hf
    · rw [Coding.mem_betweenFactors, hcount]
      exact and_congr_right fun hf => by rw [← hwithin f hf, Bool.not_eq_true]

/-- Two groups of one subject, each measured twice. -/
noncomputable def pairedGroups : ObservationTable ℝ :=
  ⟨some 2, [⟨.int 1, [.text "a", .int 1], 3⟩, ⟨.int 1, [.text "a", .int 2], 5⟩,
    ⟨.int 2, [.text "b", .int 1], 6⟩, ⟨.int 2, [.text "b", .int 2], 7⟩]⟩

theorem crossed_pairedGroups : Crossed pairedGroups.rows {0} {1} where
  constant := by simp [Varies, pairedGroups]
  populated g hg := by
    have h0 := hg 0 (Finset.mem_singleton_self 0)
    simp only [Occurs, pairedGroups, List.mem_cons, List.not_mem_nil, or_false] at h0
    rcases h0 with ⟨r, rfl | rfl | rfl | rfl, h⟩ <;> simp_all [pairedGroups]
  complete r hr g hg := by
    have h1 := hg 1 (Finset.mem_singleton_self 1)
    simp only [Occurs, pairedGroups, List.mem_cons, List.not_mem_nil, or_false] at h1 hr
    rcases h1 with ⟨q, rfl | rfl | rfl | rfl, h⟩ <;> rcases hr with rfl | rfl | rfl | rfl <;>
      simp_all [pairedGroups]
  levels_le := by
    intro f hf
    rw [Finset.mem_singleton] at hf
    subst hf
    refine (List.toFinset_card_le _).trans ((List.length_filterMap_le _ _).trans ?_)
    simp [pairedGroups]

theorem built_pairedGroups : pairedGroups.Built :=
  built_of_width (by simp) (by simp)

/-- The measurements of the two groups are a design with one factor of each kind. -/
theorem ofTable_pairedGroups : pairedGroups.Built ∧
    ∃ d, ofTable pairedGroups {} = .ok d ∧ 0 ∈ d.betweenFactors ∧ 1 ∈ d.withinFactors := by
  obtain ⟨hiff, hkinds⟩ := exists_ofTable_eq_ok_iff pairedGroups built_pairedGroups {}
  obtain ⟨d, hd⟩ := hiff.mpr ⟨by simp [pairedGroups], by decide, by decide, by decide,
    fun h => absurd h (by decide), {0}, {1}, by decide, by decide, crossed_pairedGroups⟩
  refine ⟨built_pairedGroups, d, hd, ?_, ?_⟩
  · refine ((hkinds d hd).2.2 0).mpr ⟨by decide, ?_⟩
    exact crossed_pairedGroups.constant 0 (Finset.mem_singleton_self 0)
  · refine ((hkinds d hd).1.2 1).mpr ⟨by decide, ?_⟩
    simp [Varies, pairedGroups]

end Design

end SplitPlot
