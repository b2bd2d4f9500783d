import Mathlib
import SplitPlot.Proofs.Design.Acceptance
import SplitPlot.Proofs.Design.Choices
import SplitPlot.Proofs.Replicates

/-!
# What a design error names

A table that is no design is refused with an error that names a cause: a factor, a subject, a cell
between subjects, a number of missing observations.  `DesignError.Applies` says for each error what
it asserts of the table, in terms of the rows alone, and `Design.applies_of_ofTable` is that every
error which the construction can answer with asserts something true.

The checks come after a classification that incomplete data may have misled, so a factor counts as
between or within subjects here as the reference slices have it (`ObservationTable.taken`), whether
or not it does vary.  Each check relies on the ones before it.  A cell between subjects is looked
for among the cells of the subjects, which are those of all rows only because no subject straddles;
and the number of missing observations is a difference of two counts, which is the number of missing
combinations only because no subject has two rows in one cell by then
(`Coding.Coherent.withinCellCount_sub_observed`).
-/

namespace SplitPlot

variable {K : Type}

/-! ## What each pass answers with -/

namespace Coding

namespace Coherent

variable {c : Coding K} (hc : c.Coherent)

include hc

/-- The subject that is found to straddle has observations at two levels of the factor. -/
theorem exists_of_straddling? {s axis : ℕ} (h : c.straddling? = some (s, axis)) :
    ∃ f, c.betweenFactors[axis]? = some f ∧ ∃ o ∈ c.observations, ∃ o' ∈ c.observations,
      o.subject = s ∧ o'.subject = s ∧ o.levels.getD f 0 ≠ o'.levels.getD f 0 := by
  obtain ⟨o, ho, hfind⟩ := List.exists_of_findSome?_eq_some h
  obtain ⟨axis', hindex, heq⟩ := Option.map_eq_some_iff.mp hfind
  obtain ⟨rfl, rfl⟩ := Prod.mk.inj heq
  obtain ⟨hlt, hne, -⟩ := List.findIdx?_eq_some_iff_getElem.mp hindex
  obtain ⟨o', ho', hsubject, hplace⟩ := hc.exists_placement (hc.subject_lt o ho)
  have haxis : axis' < c.betweenFactors.length := by
    rw [List.length_zip, CodedObservation.levelsAt, List.length_map] at hlt
    exact (lt_min_iff.mp hlt).2
  refine ⟨_, List.getElem?_eq_getElem haxis, o', ho', o, ho, hsubject, rfl, ?_⟩
  simpa [hplace, CodedObservation.levelsAt] using hne

variable (hplaced : ∀ o ∈ c.observations, c.placement o.subject = o.levelsAt c.betweenFactors)

include hplaced

/-- The cell that is found deserted is the first one in which no observation stands. -/
theorem exists_of_deserted? {index : List ℕ} (h : c.deserted? = some index) :
    ∃ before after, multiIndices c.betweenShape = before ++ index :: after ∧
      (∀ x ∈ before, ∃ o ∈ c.observations, o.levelsAt c.betweenFactors = x) ∧
      ¬ ∃ o ∈ c.observations, o.levelsAt c.betweenFactors = index := by
  rw [deserted?, findIndex?_eq] at h
  obtain ⟨hempty, before, after, hsplit, hbefore⟩ := List.find?_eq_some_iff_append.mp h
  have hmem : ∀ x ∈ before ++ [index], InBounds x c.betweenShape := fun x hx => by
    rw [← mem_multiIndices, hsplit, List.append_cons]
    exact List.mem_append_left _ hx
  refine ⟨before, after, hsplit, fun x hx => ?_, fun hstands => ?_⟩
  · have hx' := hbefore x hx
    rw [Bool.not_not, List.contains_iff_mem] at hx'
    exact (hc.flatIndex_mem_cells_iff hplaced (hmem x (List.mem_append_left _ hx))).mp hx'
  · have hcell := (hc.flatIndex_mem_cells_iff hplaced (hmem index (by simp))).mpr hstands
    rw [Bool.not_eq_true', ← Bool.not_eq_true, List.contains_iff_mem] at hempty
    exact hempty hcell

/-- What a subject has too few of are the cells in which it was not observed. -/
theorem withinCellCount_sub_observed (s : ℕ) : c.withinCellCount - c.observed s =
    (multiIndices c.withinShape).countP fun x => x ∉ visits c s := by
  have hperm : ((multiIndices c.withinShape).filter fun x => x ∈ visits c s).Perm (visits c s) := by
    refine (List.perm_ext_iff_of_nodup ((nodup_multiIndices _).filter _)
      (hc.nodup_visits hplaced s)).mpr fun x => ?_
    rw [List.mem_filter, decide_eq_true_iff, and_iff_right_iff_imp]
    intro hx
    obtain ⟨o, ho, -, rfl⟩ := mem_visits.mp hx
    exact mem_multiIndices.mpr (hc.inBounds_levelsAt_within ho)
  have hcount := List.length_eq_countP_add_countP (fun x => x ∈ visits c s)
    (l := multiIndices c.withinShape)
  rw [length_multiIndices, List.countP_eq_length_filter, hperm.length_eq, length_visits] at hcount
  simp only [decide_eq_true_eq] at hcount
  rw [withinCellCount, hcount, Nat.add_sub_cancel_left]

end Coherent

/-- The subject that is found incomplete is the first with too few observations. -/
theorem incomplete?_eq_some_iff {c : Coding K} {s : ℕ} : c.incomplete? = some s ↔
    s < c.subjectCount ∧ c.observed s < c.withinCellCount ∧
      ∀ s' < s, c.withinCellCount ≤ c.observed s' := by
  rw [incomplete?, List.find?_range_eq_some, List.mem_range]
  simp only [decide_eq_true_eq, Bool.not_eq_true', decide_eq_false_iff_not, not_lt]
  tauto

/-- A coding that is not complete is answered by the first pass that finds something. -/
theorem complete_eq_error [Scalar K] {c : Coding K} {e : DesignError} (h : c.complete = .error e) :
    (∃ s axis, c.straddling? = some (s, axis) ∧
      e = .subjectInMultipleGroups (c.subjects.getD s default)
        (c.factor (c.betweenFactors.getD axis 0)).name) ∨
    (∃ index, c.straddling? = none ∧ c.deserted? = some index ∧
      e = .emptyBetweenCell (Level.renderCombination (c.combination index))) ∨
    ∃ s, c.straddling? = none ∧ c.incomplete? = some s ∧
      e = .incompleteRepeatedMeasures (c.subjects.getD s default)
        (c.withinCellCount - c.observed s) := by
  unfold complete at h
  rcases hstraddling : c.straddling? with _ | ⟨s, axis⟩
  · rcases hdeserted : c.deserted? with _ | index
    · rcases hincomplete : c.incomplete? with _ | s
      · simp [hstraddling, hdeserted, hincomplete] at h
      · simp only [hstraddling, hdeserted, hincomplete, Except.error.injEq] at h
        exact .inr (.inr ⟨s, rfl, rfl, h.symm⟩)
    · simp only [hstraddling, hdeserted, Except.error.injEq] at h
      exact .inr (.inl ⟨index, rfl, rfl, h.symm⟩)
  · simp only [hstraddling, Except.error.injEq] at h
    exact .inl ⟨s, axis, rfl, h.symm⟩

end Coding

/-! ## Rows that carry a combination of levels -/

/-- Some row has a combination of levels. -/
def Carried (rows : List (Observation K)) (factors : List ℕ) (combination : List Level) : Prop :=
  ∃ r ∈ rows, r.At factors combination

/-- Some row of a subject has a combination of levels. -/
def CarriedBy (rows : List (Observation K)) (s : Level) (factors : List ℕ)
    (combination : List Level) : Prop :=
  ∃ r ∈ rows, r.subject = s ∧ r.At factors combination

instance (rows : List (Observation K)) (s : Level) (factors : List ℕ) (combination : List Level) :
    Decidable (CarriedBy rows s factors combination) :=
  inferInstanceAs (Decidable (∃ r ∈ rows, _))

section Keys

variable {rows rows' : List (Observation K)} {factors : List ℕ}

theorem Carried.mono (h : KeysWithin rows rows') {combination : List Level}
    (hr : Carried rows factors combination) : Carried rows' factors combination := by
  obtain ⟨r, hr, hat⟩ := hr
  obtain ⟨r', hr', -, hlevels⟩ := h r hr
  exact ⟨r', hr', by rwa [Observation.At, hlevels]⟩

theorem CarriedBy.mono (h : KeysWithin rows rows') {s : Level} {combination : List Level}
    (hr : CarriedBy rows s factors combination) : CarriedBy rows' s factors combination := by
  obtain ⟨r, hr, hs, hat⟩ := hr
  obtain ⟨r', hr', hsubject, hlevels⟩ := h r hr
  exact ⟨r', hr', hsubject.trans hs, by rwa [Observation.At, hlevels]⟩

end Keys

/-! ## Combinations and positions -/

section Positions

variable {rows : List (Observation K)} {names : List String} {factors : List ℕ}
  (hlen : ∀ r ∈ rows, r.levels.length = names.length) (hnodup : factors.Nodup)
  (hfactors : ∀ f ∈ factors, f < names.length) {index : List ℕ}
  (hindex : InBounds index (factors.map (rowCoding rows names).levelCount))

include hlen hnodup hfactors hindex

theorem carried_pick_iff : Carried rows factors (pick (columnLevels rows) factors index) ↔
    ∃ o ∈ (rowCoding rows names).observations, o.levelsAt factors = index := by
  constructor
  · rintro ⟨r, hr, hat⟩
    exact ⟨_, mem_observations_rowCoding.mpr ⟨r, hr, rfl⟩,
      (at_pick_iff hfactors hlen hnodup hindex hr).mp hat⟩
  · rintro ⟨o, ho, hlevels⟩
    obtain ⟨r, hr, rfl⟩ := mem_observations_rowCoding.mp ho
    exact ⟨r, hr, (at_pick_iff hfactors hlen hnodup hindex hr).mpr hlevels⟩

theorem carriedBy_pick_iff (q : Observation K) :
    CarriedBy rows q.subject factors (pick (columnLevels rows) factors index) ↔
      ∃ o ∈ (rowCoding rows names).observations, o.subject = (code rows names q).subject ∧
        o.levelsAt factors = index := by
  constructor
  · rintro ⟨r, hr, hsubject, hat⟩
    exact ⟨_, mem_observations_rowCoding.mpr ⟨r, hr, rfl⟩, (subject_code_inj hr).mpr hsubject,
      (at_pick_iff hfactors hlen hnodup hindex hr).mp hat⟩
  · rintro ⟨o, ho, hsubject, hlevels⟩
    obtain ⟨r, hr, rfl⟩ := mem_observations_rowCoding.mp ho
    exact ⟨r, hr, (subject_code_inj hr).mp hsubject,
      (at_pick_iff hfactors hlen hnodup hindex hr).mpr hlevels⟩

end Positions

/-! ## Subjects in order -/

section Subjects

variable {rows : List (Observation K)} (names : List String)

theorem getD_subjects {q : Observation K} (hq : q ∈ rows) :
    (rowCoding rows names).subjects.getD (code rows names q).subject default = q.subject := by
  rw [List.getD_eq_getElem _ _ (subject_code_lt hq)]
  exact List.getElem_idxOf (subject_code_lt hq)

/-- Subjects are numbered in their order. -/
theorem subject_code_lt_of_lt {r q : Observation K} (hr : r ∈ rows) (hq : q ∈ rows)
    (h : r.subject < q.subject) : (code rows names r).subject < (code rows names q).subject := by
  have hpairwise := List.pairwise_iff_getElem.mp (pairwise_ascending (rows.map (·.subject)))
  by_contra hge
  rcases eq_or_lt_of_le (not_lt.mp hge) with heq | hlt
  · rw [(subject_code_inj hq).mp heq] at h
    exact Level.lt_asymm h h
  · have hsubjects := hpairwise _ _ (subject_code_lt hq) (subject_code_lt hr) hlt
    refine Level.lt_asymm h ?_
    rwa [← getD_subjects names hq, ← getD_subjects names hr,
      List.getD_eq_getElem _ _ (subject_code_lt hq), List.getD_eq_getElem _ _ (subject_code_lt hr)]

end Subjects

/-! ## What each error asserts -/

variable [Scalar K]

/-- The factors that are taken for factors within subjects, because a subject occurs twice in their
reference slices, or the ones that are taken for factors between. -/
def ObservationTable.taken (t : ObservationTable K) (within : Bool) : List ℕ :=
  (List.range t.factorCount).filter fun f =>
    variesWithin t.averages (allLevels t.averages t.factorCount) f == within

/-- What an error asserts of a table. -/
def DesignError.Applies (t : ObservationTable K) (settings : Settings) : DesignError → Prop
  | .emptyTable => t.rows = []
  | .noFactors => t.factorCount = 0
  | .tooManyFactors factors max => factors = t.factorCount ∧ max = 16 ∧ max < factors
  | .factorNameCount expected actual =>
    expected = t.factorCount ∧ actual = (settings.resolveNames t.factorCount).length ∧
      actual ≠ expected
  | .duplicateObservation row subject =>
    settings.duplicates = .reject ∧ (∃ r, t.rows[row]? = some r ∧ r.subject = subject) ∧
      t.RepeatsAt row ∧ ∀ row' < row, ¬ t.RepeatsAt row'
  | .tooManyWithinLevels factor levels max =>
    ∃ f < t.factorCount, (settings.resolveNames t.factorCount)[f]? = some factor ∧
      levels = (columnLevels t.rows f).length ∧ max = 10 ∧ max < levels ∧ Varies t.rows f
  | .subjectInMultipleGroups subject factor =>
    ∃ f ∈ t.taken false, (settings.resolveNames t.factorCount)[f]? = some factor ∧
      ∃ r ∈ t.rows, ∃ r' ∈ t.rows, r.subject = subject ∧ r'.subject = subject ∧
        r.levels[f]? ≠ r'.levels[f]?
  | .emptyBetweenCell cell =>
    ∃ before combination after,
      levelCombinations t.rows (t.taken false) = before ++ combination :: after ∧
        cell = Level.renderCombination combination ∧
        (∀ other ∈ before, Carried t.rows (t.taken false) other) ∧
        ¬ Carried t.rows (t.taken false) combination
  | .incompleteRepeatedMeasures subject missing =>
    (∃ r ∈ t.rows, r.subject = subject) ∧
      missing = (levelCombinations t.rows (t.taken true)).countP
        (fun combination => ¬ CarriedBy t.rows subject (t.taken true) combination) ∧
      1 ≤ missing ∧
      ∀ r ∈ t.rows, r.subject < subject → ∀ combination ∈ levelCombinations t.rows (t.taken true),
        CarriedBy t.rows r.subject (t.taken true) combination
  | .rowWidthMismatch .. => False
  | .nonFiniteValue .. => False
  | .emptyFactor .. => False

namespace Design

variable {t : ObservationTable K} {settings : Settings} {e : DesignError}

theorem betweenFactors_tableCoding (hadm : Admissible t settings) :
    (tableCoding t settings).betweenFactors = t.taken false := by
  rw [Coding.betweenFactors, factorCount_tableCoding hadm, ObservationTable.taken]
  refine List.filter_congr fun f hf => ?_
  rw [within_factor_tableCoding hadm (List.mem_range.mp hf), beq_false]

theorem withinFactors_tableCoding (hadm : Admissible t settings) :
    (tableCoding t settings).withinFactors = t.taken true := by
  rw [Coding.withinFactors, factorCount_tableCoding hadm, ObservationTable.taken]
  refine List.filter_congr fun f hf => ?_
  rw [within_factor_tableCoding hadm (List.mem_range.mp hf), beq_true]

section Taken

variable (ht : t.Built) (hadm : Admissible t settings) {within : Bool}

include hadm

theorem lt_of_mem_taken {f : ℕ} (hf : f ∈ t.taken within) :
    f < (settings.resolveNames t.factorCount).length := by
  rw [hadm.length_names]
  exact List.mem_range.mp (List.mem_of_mem_filter hf)

/-- The combinations of the levels in the rows are the levels at the positions along the factors. -/
theorem levelCombinations_taken : levelCombinations t.rows (t.taken within) =
    (multiIndices ((t.taken within).map (tableCoding t settings).levelCount)).map
      (pick (columnLevels t.averages) (t.taken within)) := by
  rw [levelCombinations_congr keysWithin_rows keysWithin_averages]
  exact levelCombinations_eq_map fun f hf => lt_of_mem_taken hadm hf

include ht

theorem length_levels_names : ∀ r ∈ t.averages,
    r.levels.length = (settings.resolveNames t.factorCount).length := fun r hr =>
  (length_levels_averages ht r hr).trans hadm.length_names.symm

variable {index : List ℕ}
  (hindex : InBounds index ((t.taken within).map (tableCoding t settings).levelCount))

include hindex

theorem carried_taken_iff :
    Carried t.rows (t.taken within) (pick (columnLevels t.averages) (t.taken within) index) ↔
      ∃ o ∈ (tableCoding t settings).observations, o.levelsAt (t.taken within) = index :=
  Iff.trans ⟨.mono keysWithin_rows, .mono keysWithin_averages⟩
    (carried_pick_iff (length_levels_names ht hadm) (List.nodup_range.filter _)
      (fun _ hf => lt_of_mem_taken hadm hf) hindex)

theorem carriedBy_taken_iff (r : Observation K) :
    CarriedBy t.rows r.subject (t.taken within)
        (pick (columnLevels t.averages) (t.taken within) index) ↔
      ∃ o ∈ (tableCoding t settings).observations,
        o.subject = (code t.averages (settings.resolveNames t.factorCount) r).subject ∧
          o.levelsAt (t.taken within) = index :=
  Iff.trans ⟨.mono keysWithin_rows, .mono keysWithin_averages⟩
    (carriedBy_pick_iff (length_levels_names ht hadm) (List.nodup_range.filter _)
      (fun _ hf => lt_of_mem_taken hadm hf) hindex r)

end Taken

/-! ### The checks before the coding -/

theorem applies_of_factorNames? (h : factorNames? t settings = .error e) :
    e.Applies t settings := by
  unfold factorNames? at h
  simp only at h
  split_ifs at h with hempty hzero hmany hnames
  · obtain rfl := Except.error.inj h
    exact List.isEmpty_iff.mp hempty
  · obtain rfl := Except.error.inj h
    exact hzero
  · obtain rfl := Except.error.inj h
    exact ⟨rfl, rfl, hmany⟩
  · obtain rfl := Except.error.inj h
    exact ⟨rfl, rfl, hnames⟩

theorem applies_of_deduplicate (h : t.deduplicate settings.duplicates = .error e) :
    e.Applies t settings := by
  rcases hpolicy : settings.duplicates with _ | _
  · rw [hpolicy] at h
    cases h
  · rw [hpolicy, ObservationTable.deduplicate] at h
    rcases hrepeat : t.firstRepeat? with _ | ⟨row, r⟩
    · rw [hrepeat] at h
      cases h
    · rw [hrepeat] at h
      obtain rfl := Except.error.inj h
      obtain ⟨hget, hrepeats, hfirst⟩ := ObservationTable.firstRepeat?_eq_some_iff.mp hrepeat
      exact ⟨hpolicy, ⟨r, hget, rfl⟩, hrepeats, hfirst⟩

section Checks

variable (ht : t.Built) (hadm : Admissible t settings)

include ht hadm

theorem applies_of_classifyFactors
    (h : classifyFactors t.averages (settings.resolveNames t.factorCount) = .error e) :
    e.Applies t settings := by
  obtain ⟨named, hnamed, herror⟩ := exists_eq_error_of_mapM h
  have hget := List.mem_zipIdx_iff_getElem?.mp hnamed
  have hlt : named.2 < t.factorCount :=
    hadm.length_names ▸ (List.getElem?_eq_some_iff.mp hget).1
  have hlevels :
      (allLevels t.averages (settings.resolveNames t.factorCount).length).getD named.2 [] =
        columnLevels t.averages named.2 := by
    rw [List.getD_eq_getElem?_getD, List.getElem?_map,
      List.getElem?_range (hlt.trans_eq hadm.length_names.symm)]
    rfl
  unfold classifyFactor at herror
  simp only at herror
  split at herror
  · next hmany =>
    obtain rfl := Except.error.inj herror
    rw [hlevels] at hmany ⊢
    rw [columnLevels_congr keysWithin_averages keysWithin_rows] at hmany ⊢
    refine ⟨named.2, hlt, hget, rfl, rfl, hmany.2, varies_averages_iff.mp ?_⟩
    exact varies_of_variesWithin (length_levels_names ht hadm) t.nodup_key_averages hmany.1
  · cases herror

/-! ### The checks of the coding -/

theorem applies_of_straddling? {s axis : ℕ}
    (h : (tableCoding t settings).straddling? = some (s, axis)) :
    (DesignError.subjectInMultipleGroups ((tableCoding t settings).subjects.getD s default)
      ((tableCoding t settings).factor
        ((tableCoding t settings).betweenFactors.getD axis 0)).name).Applies t settings := by
  obtain ⟨f, hf, o, ho, o', ho', rfl, hsubject, hne⟩ :=
    (coherent_tableCoding ht hadm).exists_of_straddling? h
  obtain ⟨r, hr, rfl⟩ := mem_observations_rowCoding.mp ho
  obtain ⟨r', hr', rfl⟩ := mem_observations_rowCoding.mp ho'
  have hlt := lt_of_mem_betweenFactors f (List.mem_of_getElem? hf)
  have hlen := length_levels_names ht hadm
  rw [List.getD_eq_getElem?_getD (l := (tableCoding t settings).betweenFactors), hf,
    Option.getD_some, tableCoding, getD_subjects _ hr, factor_rowCoding hlt]
  -- the rows of the table with the same subject and levels
  obtain ⟨q, hq, hqs, hql⟩ := keysWithin_averages r hr
  obtain ⟨q', hq', hqs', hql'⟩ := keysWithin_averages r' hr'
  refine ⟨f, betweenFactors_tableCoding hadm ▸ List.mem_of_getElem? hf,
    List.getElem?_eq_getElem hlt, q, hq, q', hq', hqs,
    hqs'.trans ((subject_code_inj hr').mp hsubject), ?_⟩
  rw [hql, hql']
  exact fun heq => hne ((getD_levels_code_inj hr' (hlen r hr) (hlen r' hr') hlt).mpr heq)

variable (hplaced : ∀ o ∈ (tableCoding t settings).observations,
  (tableCoding t settings).placement o.subject = o.levelsAt (tableCoding t settings).betweenFactors)

include hplaced

theorem applies_of_deserted? {index : List ℕ}
    (h : (tableCoding t settings).deserted? = some index) :
    (DesignError.emptyBetweenCell (Level.renderCombination
      ((tableCoding t settings).combination index))).Applies t settings := by
  obtain ⟨before, after, hsplit, hbefore, hnone⟩ :=
    (coherent_tableCoding ht hadm).exists_of_deserted? hplaced h
  have hfactors := betweenFactors_tableCoding hadm
  rw [Coding.betweenShape, hfactors] at hsplit
  rw [hfactors] at hbefore hnone
  have hmem : ∀ x ∈ before ++ index :: after,
      InBounds x ((t.taken false).map (tableCoding t settings).levelCount) := fun x hx =>
    mem_multiIndices.mp (hsplit ▸ hx)
  have hcombination : (tableCoding t settings).combination index =
      pick (columnLevels t.averages) (t.taken false) index := by
    rw [Coding.combination, pick, hfactors]
    refine List.map_congr_left fun e he => ?_
    rw [tableCoding, factor_rowCoding (lt_of_mem_taken hadm (List.of_mem_zip he).2)]
  refine ⟨before.map (pick (columnLevels t.averages) (t.taken false)), _,
    after.map (pick (columnLevels t.averages) (t.taken false)), ?_, rfl, fun other hother => ?_, ?_⟩
  · rw [levelCombinations_taken hadm, hsplit, hcombination, List.map_append, List.map_cons]
  · obtain ⟨x, hx, rfl⟩ := List.mem_map.mp hother
    exact (carried_taken_iff ht hadm (hmem x (List.mem_append_left _ hx))).mpr (hbefore x hx)
  · rw [hcombination, carried_taken_iff ht hadm (hmem index (by simp))]
    exact hnone

theorem applies_of_incomplete? {s : ℕ} (h : (tableCoding t settings).incomplete? = some s) :
    (DesignError.incompleteRepeatedMeasures ((tableCoding t settings).subjects.getD s default)
      ((tableCoding t settings).withinCellCount - (tableCoding t settings).observed s)).Applies t
        settings := by
  have hcoh := coherent_tableCoding ht hadm
  obtain ⟨hs, hless, hbefore⟩ := Coding.incomplete?_eq_some_iff.mp h
  obtain ⟨q, hq, rfl⟩ := exists_subject_code hs
  have hshape : (tableCoding t settings).withinShape =
      (t.taken true).map (tableCoding t settings).levelCount := by
    rw [Coding.withinShape, withinFactors_tableCoding hadm]
  have hvisits : ∀ r : Observation K, ∀ x ∈ multiIndices (tableCoding t settings).withinShape,
      (CarriedBy t.rows r.subject (t.taken true) (pick (columnLevels t.averages) (t.taken true) x) ↔
        x ∈ Coding.Coherent.visits (tableCoding t settings)
          (code t.averages (settings.resolveNames t.factorCount) r).subject) := fun r x hx => by
    rw [Coding.Coherent.mem_visits, withinFactors_tableCoding hadm]
    exact carriedBy_taken_iff ht hadm (hshape ▸ mem_multiIndices.mp hx) r
  obtain ⟨p, hp, hps, -⟩ := keysWithin_averages q hq
  rw [tableCoding, getD_subjects _ hq]
  refine ⟨⟨p, hp, hps⟩, ?_, Nat.sub_pos_of_lt hless, fun r hr hless combination hcombination => ?_⟩
  · rw [levelCombinations_taken hadm, ← hshape, List.countP_map]
    refine (hcoh.withinCellCount_sub_observed hplaced _).trans (List.countP_congr fun x hx => ?_)
    rw [decide_eq_true_iff, Function.comp_apply, decide_eq_true_iff, hvisits q x hx]
  · obtain ⟨r', hr', hsubject, -⟩ := keysWithin_rows r hr
    rw [levelCombinations_taken hadm, ← hshape] at hcombination
    obtain ⟨x, hx, rfl⟩ := List.mem_map.mp hcombination
    rw [← hsubject] at hless ⊢
    -- a subject before the one that is named has as many rows as there are combinations
    refine (hvisits r' x hx).mpr ((hcoh.cellCount_le_observed_iff hplaced _).mp ?_ x
      (mem_multiIndices.mp hx))
    exact hbefore _ (subject_code_lt_of_lt _ hr' hq hless)

end Checks

/-- **A design error names a real culprit.**  Whatever error a built table is refused with, what the
error asserts of the rows is the case. -/
theorem applies_of_ofTable (ht : t.Built) (h : ofTable t settings = .error e) :
    e.Applies t settings := by
  rcases bind_eq_error_iff.mp h with hnames | ⟨names, hnames, h⟩
  · exact applies_of_factorNames? hnames
  obtain ⟨hne, h1, h16, hlength, rfl⟩ := (factorNames?_eq_ok_iff t settings names).mp hnames
  rcases bind_eq_error_iff.mp h with hrows | ⟨rows, hrows, h⟩
  · exact applies_of_deduplicate hrows
  obtain ⟨rfl, hdup⟩ := (t.deduplicate_eq_ok_iff _ rows).mp hrows
  have hadm : Admissible t settings := ⟨hne, h1, h16, hlength, hdup⟩
  rcases bind_eq_error_iff.mp h with hfactors | ⟨factors, hfactors, h⟩
  · exact applies_of_classifyFactors ht hadm hfactors
  obtain ⟨-, rfl⟩ := (classifyFactors_eq_ok_iff _ _ factors).mp hfactors
  have hcoh := coherent_tableCoding ht hadm
  rcases Coding.complete_eq_error h with ⟨s, axis, hfound, rfl⟩ | ⟨index, hnone, hfound, rfl⟩ |
    ⟨s, hnone, hfound, rfl⟩
  · exact applies_of_straddling? ht hadm hfound
  · exact applies_of_deserted? ht hadm (hcoh.straddling?_eq_none_iff.mp hnone) hfound
  · exact applies_of_incomplete? ht hadm (hcoh.straddling?_eq_none_iff.mp hnone) hfound

/-- Three occasions, of which the second and the third subject attended the first only. -/
noncomputable def seldomSeen : ObservationTable ℝ :=
  wholeTable 1 [(1, [1], 5), (1, [2], 6), (1, [3], 7), (3, [1], 2), (2, [1], 4)]

/-- The second subject is named, with two occasions missing. -/
theorem applies_seldomSeen : seldomSeen.Built ∧
    ofTable seldomSeen {} = .error (.incompleteRepeatedMeasures (.int 2) 2) ∧
    (DesignError.incompleteRepeatedMeasures (.int 2) 2).Applies seldomSeen {} := by
  have hbuilt : seldomSeen.Built := built_wholeTable (List.cons_ne_nil _ _) (by decide)
  have herror : ofTable seldomSeen {} = .error (.incompleteRepeatedMeasures (.int 2) 2) := rfl
  exact ⟨hbuilt, herror, applies_of_ofTable hbuilt herror⟩

end Design

end SplitPlot
