import Mathlib
import SplitPlot.Proofs.OneWay
import SplitPlot.Proofs.Totality

/-!
# The order of the rows and replicates

An analysis does not depend on the order in which the rows of a table were offered.  It reads the
rows in three places only: it asks whether there are any, it takes the averages of the replicates,
and where replicates are to be rejected it looks for the first row that repeats a key.  Whatever
follows --- the levels, the kinds of the factors, the cells, every error with what it names --- is
computed from the averages, and these stand in the order of their keys.

## What the order can change

The mean of replicates is a sum, and in floating point a sum depends on its order.  In exact
arithmetic it does not, and then neither do the averages (`averages_eq_of_perm`).  Without
replicates there is nothing to add, so the averages agree whatever the arithmetic does.  The first
row that repeats a key is another one in another order, but there is one or there is none
(`deduplicate_eq_or_of_perm`).

## Averaging twice

The averages have no replicates.  So a table that is made of them has itself as its averages,
provided that the mean of a single value is that value (`averages_eq_rows`).
-/

namespace SplitPlot

/-- Two errors are alike if they are equal, or if both report a repeated observation. -/
inductive DesignError.Alike : DesignError → DesignError → Prop where
  | refl (e : DesignError) : Alike e e
  | repeated (row row' : ℕ) (s s' : Level) :
    Alike (.duplicateObservation row s) (.duplicateObservation row' s')

variable {K : Type} [Scalar K]

/-! ## Averages of permuted rows -/

namespace ObservationTable

variable {t t' : ObservationTable K}

/-- Permuted rows have the same averages if their replicates have the same means. -/
theorem averages_eq_of_perm (hperm : t.rows.Perm t'.rows)
    (hmean : ∀ key, mean ((t.rows.filter fun o => o.key == key).map (·.value)) =
      mean ((t'.rows.filter fun o => o.key == key).map (·.value))) : t.averages = t'.averages := by
  have hkeys : ascending (t.rows.map Observation.key) = ascending (t'.rows.map Observation.key) :=
    ascending_congr fun _ => (hperm.map _).mem_iff
  have haverage : t.average = t'.average := funext fun key => by rw [average, average, hmean]
  rw [averages, averages, hkeys, haverage]

omit [Scalar K] in
/-- Of rows without replicates at most one has a given key. -/
theorem filter_key_eq_of_perm (hperm : t.rows.Perm t'.rows)
    (h : (t.rows.map Observation.key).Nodup) (key : List Level) :
    (t.rows.filter fun o => o.key == key) = t'.rows.filter fun o => o.key == key := by
  have hle : (t.rows.filter fun o => o.key == key).length ≤ 1 := by
    have hcount := List.nodup_iff_count_le_one.mp h key
    rwa [List.count, List.countP_map, List.countP_eq_length_filter] at hcount
  have hfilter := hperm.filter fun o => o.key == key
  rcases Nat.le_one_iff_eq_zero_or_eq_one.mp hle with h0 | h1
  · rw [List.length_eq_zero_iff.mp h0] at hfilter ⊢
    exact hfilter.nil_eq
  · obtain ⟨o, ho⟩ := List.length_eq_one_iff.mp h1
    rw [ho] at hfilter ⊢
    exact (List.perm_singleton.mp hfilter.symm).symm

/-- Either permuted rows with the same averages have the same replacement for their replicates, or
these are rejected in both orders. -/
theorem deduplicate_eq_or_of_perm (hperm : t.rows.Perm t'.rows) (h : t.averages = t'.averages)
    (policy : DuplicatePolicy) : t.deduplicate policy = t'.deduplicate policy ∨
      ∃ row s row' s', t.deduplicate policy = .error (.duplicateObservation row s) ∧
        t'.deduplicate policy = .error (.duplicateObservation row' s') := by
  have hnodup : t.firstRepeat? = none ↔ t'.firstRepeat? = none := by
    rw [firstRepeat?_eq_none_iff, firstRepeat?_eq_none_iff, (hperm.map _).nodup_iff]
  cases policy with
  | average => exact .inl (congrArg Except.ok h)
  | reject =>
    rw [deduplicate, deduplicate]
    cases hrepeat : t.firstRepeat? with
    | none => rw [hnodup.mp hrepeat, h]; exact .inl rfl
    | some r =>
      cases hrepeat' : t'.firstRepeat? with
      | none => rw [hnodup.mpr hrepeat'] at hrepeat; cases hrepeat
      | some r' => exact .inr ⟨_, _, _, _, rfl, rfl⟩

/-- Without replicates there is nothing to reject. -/
theorem deduplicate_of_nodup (h : (t.rows.map Observation.key).Nodup) (policy : DuplicatePolicy) :
    t.deduplicate policy = .ok t.averages :=
  (t.deduplicate_eq_ok_iff policy _).mpr ⟨rfl, fun _ => h⟩

/-- Rows without replicates that stand in the order of their keys are their own averages. -/
theorem averages_eq_rows (h : ascending (t.rows.map Observation.key) = t.rows.map Observation.key)
    (hmean : ∀ r ∈ t.rows, mean [r.value] = r.value) : t.averages = t.rows := by
  have hnodup : (t.rows.map Observation.key).Nodup := h ▸ nodup_ascending _
  rw [averages, h, map_average_key hnodup hmean]

end ObservationTable

/-! ## The design of permuted rows -/

namespace Design

variable {t t' : ObservationTable K} {settings : Settings}

omit [Scalar K] in
theorem factorNames?_congr (hempty : t.isEmpty = t'.isEmpty)
    (hcount : t.rows ≠ [] → t.factorCount = t'.factorCount) :
    factorNames? t settings = factorNames? t' settings := by
  by_cases h : t.rows = []
  · have ht : t.isEmpty = true := List.isEmpty_iff.mpr h
    rw [factorNames?, factorNames?, if_pos ht, if_pos (hempty ▸ ht)]
  · rw [factorNames?, factorNames?, hempty, hcount h]

theorem factorNames?_perm (ht : t.Built) (ht' : t'.Built) (hperm : t.rows.Perm t'.rows) :
    factorNames? t settings = factorNames? t' settings := by
  refine factorNames?_congr hperm.isEmpty_eq fun hne => ?_
  obtain ⟨r, hr⟩ := List.exists_mem_of_ne_nil _ hne
  rw [← ht.length_levels hr, ← ht'.length_levels (hperm.mem_iff.mp hr)]

theorem ofTable_congr (hnames : factorNames? t settings = factorNames? t' settings)
    (hrows : t.deduplicate settings.duplicates = t'.deduplicate settings.duplicates) :
    ofTable t settings = ofTable t' settings := by
  rw [ofTable, ofTable, hnames, hrows]

/-- Permuted rows with the same averages are the same design, or the same error keeps them from
being one, or both have replicates that are rejected. -/
theorem ofTable_perm (ht : t.Built) (ht' : t'.Built) (hperm : t.rows.Perm t'.rows)
    (h : t.averages = t'.averages) : ofTable t settings = ofTable t' settings ∨
      ∃ row s row' s', ofTable t settings = .error (.duplicateObservation row s) ∧
        ofTable t' settings = .error (.duplicateObservation row' s') := by
  rw [ofTable, ofTable, factorNames?_perm ht ht' hperm]
  cases factorNames? t' settings with
  | error e => exact .inl rfl
  | ok names =>
    rcases ObservationTable.deduplicate_eq_or_of_perm hperm h settings.duplicates with
      hrows | ⟨row, s, row', s', hrow, hrow'⟩
    · rw [hrows]
      exact .inl rfl
    · rw [hrow, hrow']
      exact .inr ⟨row, s, row', s', rfl, rfl⟩

end Design

/-! ## The analysis of permuted rows -/

theorem anova_congr {t t' : ObservationTable K} {settings : Settings}
    (h : Design.ofTable t settings = Design.ofTable t' settings) :
    anova t settings = anova t' settings := by
  rw [anova, anova, Analysis.ofTable, Analysis.ofTable, h]

/-- In exact arithmetic permuted rows have the same table of results or errors that are alike. -/
theorem anova_perm_exact {t t' : ObservationTable ℝ} (settings : Settings) (ht : t.Built)
    (ht' : t'.Built) (hperm : t.rows.Perm t'.rows) :
    (∃ table, anova t settings = .ok table ∧ anova t' settings = .ok table) ∨
      ∃ e e', anova t settings = .error (.design e) ∧ anova t' settings = .error (.design e') ∧
        e.Alike e' := by
  have haverages : t.averages = t'.averages :=
    ObservationTable.averages_eq_of_perm hperm fun key => mean_perm ((hperm.filter _).map _)
  have hdesign : Design.ofTable t settings = Design.ofTable t' settings ∨ _ :=
    Design.ofTable_perm ht ht' hperm haverages
  rcases hdesign with heq | ⟨row, s, row', s', hrow, hrow'⟩
  · cases hofTable : Design.ofTable t settings with
    | ok d => exact .inl ⟨_, anova_eq_ok ht hofTable, anova_eq_ok ht' (heq ▸ hofTable)⟩
    | error e =>
      exact .inr ⟨e, e, anova_eq_error hofTable, anova_eq_error (heq ▸ hofTable), .refl e⟩
  · exact .inr ⟨_, _, anova_eq_error hrow, anova_eq_error hrow', .repeated row row' s s'⟩

/-- Without replicates permuted rows have the same analysis, whatever the arithmetic. -/
theorem anova_perm_of_nodup {t t' : ObservationTable K} (settings : Settings) (ht : t.Built)
    (ht' : t'.Built) (hperm : t.rows.Perm t'.rows) (hkeys : (t.rows.map Observation.key).Nodup) :
    anova t settings = anova t' settings := by
  have haverages : t.averages = t'.averages :=
    ObservationTable.averages_eq_of_perm hperm fun key => by
      rw [ObservationTable.filter_key_eq_of_perm hperm hkeys]
  refine anova_congr (Design.ofTable_congr (Design.factorNames?_perm ht ht' hperm) ?_)
  rw [ObservationTable.deduplicate_of_nodup hkeys,
    ObservationTable.deduplicate_of_nodup ((hperm.map _).nodup_iff.mp hkeys), haverages]

/-! ## The analysis of the averages -/

/-- The averages of a table are a table with the same analysis, if each of them is finite and the
mean of itself. -/
theorem anova_averages {t : ObservationTable K} {settings : Settings} (ht : t.Built)
    (hpolicy : settings.duplicates = .average)
    (hvalue : ∀ r ∈ t.averages, Scalar.IsFinite r.value ∧ mean [r.value] = r.value) :
    ∃ t', ObservationTable.ofRows t.averages = .ok t' ∧ anova t' settings = anova t settings := by
  have hempty : t.averages = [] ↔ t.rows = [] := by
    rw [← List.map_eq_nil_iff (f := Observation.key), t.map_key_averages, ascending_eq_nil_iff,
      List.map_eq_nil_iff]
  -- any table with these rows will do, if it has the width of the given one
  have hsame : ∀ t' : ObservationTable K, t'.rows = t.averages →
      (t.rows ≠ [] → t'.factorCount = t.factorCount) → anova t' settings = anova t settings := by
    intro t' hrows hcount
    refine anova_congr (Design.ofTable_congr (Design.factorNames?_congr ?_ fun hne => ?_) ?_)
    · rw [ObservationTable.isEmpty, ObservationTable.isEmpty, hrows, Bool.eq_iff_iff,
        List.isEmpty_iff, List.isEmpty_iff, hempty]
    · exact hcount (mt hempty.mpr (hrows ▸ hne))
    · rw [hpolicy]
      show Except.ok t'.averages = .ok t.averages
      rw [← hrows, ObservationTable.averages_eq_rows ?_ fun r hr => (hvalue r (hrows ▸ hr)).2]
      rw [hrows, t.map_key_averages]
      exact ascending_congr fun _ => mem_ascending
  by_cases hrows : t.rows = []
  · exact ⟨∅, by rw [hempty.mpr hrows]; rfl,
      hsame ∅ (hempty.mpr hrows).symm fun hne => absurd hrows hne⟩
  · exact ⟨_, ObservationTable.ofRows_eq_ok (mt hempty.mp hrows) (Design.length_levels_averages ht)
      fun r hr => (hvalue r hr).1, hsame _ rfl fun _ => rfl⟩

/-! ## Order and replicates -/

/-- **The order of the rows and replicates do not matter.**  In exact arithmetic two tables with the
same rows in different orders have the same table of results, or neither has one and the errors are
alike; without replicates their analyses are the same in any arithmetic.  Where replicates are
averaged, the table of the averages has the same analysis as the table itself: in exact arithmetic
always, and in any other provided that the averages are finite and each the mean of itself. -/
theorem anova_rows :
    (∀ (t t' : ObservationTable ℝ) (settings : Settings), t.Built → t'.Built →
      t.rows.Perm t'.rows →
        (∃ table, anova t settings = .ok table ∧ anova t' settings = .ok table) ∨
        ∃ e e', anova t settings = .error (.design e) ∧ anova t' settings = .error (.design e') ∧
          e.Alike e') ∧
    (∀ (K : Type) [Scalar K] (t t' : ObservationTable K) (settings : Settings), t.Built → t'.Built →
      t.rows.Perm t'.rows → (t.rows.map Observation.key).Nodup →
        anova t settings = anova t' settings) ∧
    (∀ (t : ObservationTable ℝ) (settings : Settings) (rows : List (Observation ℝ)), t.Built →
      settings.duplicates = .average → t.deduplicate settings.duplicates = .ok rows →
        ∃ t', ObservationTable.ofRows rows = .ok t' ∧ anova t' settings = anova t settings) ∧
    ∀ (K : Type) [Scalar K] (t : ObservationTable K) (settings : Settings)
      (rows : List (Observation K)), t.Built → settings.duplicates = .average →
        t.deduplicate settings.duplicates = .ok rows →
        (∀ r ∈ rows, Scalar.IsFinite r.value ∧ mean [r.value] = r.value) →
        ∃ t', ObservationTable.ofRows rows = .ok t' ∧ anova t' settings = anova t settings := by
  refine ⟨fun t t' settings ht ht' => anova_perm_exact settings ht ht',
    fun K _ t t' settings ht ht' => anova_perm_of_nodup settings ht ht',
    fun t settings rows ht hpolicy hrows => ?_,
    fun K _ t settings rows ht hpolicy hrows hvalue => ?_⟩
  · obtain ⟨rfl, -⟩ := (t.deduplicate_eq_ok_iff _ rows).mp hrows
    exact anova_averages ht hpolicy fun r _ => ⟨isFinite r.value, mean_singleton r.value⟩
  · obtain ⟨rfl, -⟩ := (t.deduplicate_eq_ok_iff _ rows).mp hrows
    exact anova_averages ht hpolicy hvalue

/-- Two subjects in two groups, one of them measured twice in the same cell. -/
noncomputable def repeatedScores : ObservationTable ℝ :=
  wholeTable 1 [(1, [0], 3), (2, [1], 5), (1, [0], 7)]

/-- The same rows in another order. -/
noncomputable def reorderedScores : ObservationTable ℝ :=
  wholeTable 1 [(1, [0], 7), (1, [0], 3), (2, [1], 5)]

/-- The rows of `repeatedScores` have the same analysis in the other order and after averaging, and
if replicates are rejected they are rejected in the other order too.  Without the second replicate
the order does not matter in any arithmetic. -/
theorem anova_repeatedScores : repeatedScores.Built ∧ reorderedScores.Built ∧
    repeatedScores.rows.Perm reorderedScores.rows ∧
    (∃ table, anova repeatedScores {} = .ok table ∧ anova reorderedScores {} = .ok table) ∧
    (∃ e, anova reorderedScores { duplicates := .reject } = .error (.design e) ∧
      DesignError.Alike (.duplicateObservation 2 (.int 1)) e) ∧
    (∃ rows t, repeatedScores.deduplicate .average = .ok rows ∧
      ObservationTable.ofRows rows = .ok t ∧ anova t {} = anova repeatedScores {}) ∧
    anova (wholeTable 1 [(1, [0], 3), (2, [1], 5)]) {} =
      anova (wholeTable 1 [(2, [1], 5), (1, [0], 3)]) {} := by
  have hbuilt : repeatedScores.Built := built_wholeTable (by decide) (by decide)
  have hbuilt' : reorderedScores.Built := built_wholeTable (by decide) (by decide)
  have hperm : repeatedScores.rows.Perm reorderedScores.rows := List.Perm.map _ (by decide)
  have hofTable : Design.ofTable repeatedScores {} =
      .ok (Design.tableCoding repeatedScores {}).toDesign := rfl
  have hreject : Design.ofTable repeatedScores { duplicates := .reject } =
      .error (.duplicateObservation 2 (.int 1)) := rfl
  obtain ⟨hexact, hnodup, haverages, -⟩ := anova_rows
  refine ⟨hbuilt, hbuilt', hperm, ?_, ?_, ?_, ?_⟩
  · rcases hexact _ _ {} hbuilt hbuilt' hperm with htable | ⟨e, e', he, -⟩
    · exact htable
    · rw [anova_eq_ok hbuilt hofTable] at he
      cases he
  · rcases hexact _ _ { duplicates := .reject } hbuilt hbuilt' hperm with
      ⟨table, htable, -⟩ | ⟨e, e', he, he', halike⟩
    · rw [anova_eq_error hreject] at htable
      cases htable
    · rw [anova_eq_error hreject] at he
      cases he
      exact ⟨e', he', halike⟩
  · obtain ⟨t, ht, htable⟩ := haverages repeatedScores {} _ hbuilt rfl rfl
    exact ⟨_, t, rfl, ht, htable⟩
  · exact hnodup ℝ _ _ {} (built_wholeTable (by decide) (by decide))
      (built_wholeTable (by decide) (by decide)) (List.Perm.map _ (by decide)) (by decide)

end SplitPlot
