import Mathlib
import SplitPlot.Proofs.Rows

/-!
# What a table keeps of the rows it was offered

Rows are offered to a table one after another, and some are refused.  This is the theory of whole
runs of offers, refusals included (`ObservationTable.offerAll`).

The width of a table is fixed by the first row that is offered to it.  One offer to a table of a
known width keeps a row that fits (`push_of_fits`) and leaves the table as it was otherwise
(`push_of_not_fits`); so a run keeps, in order, the rows that fit the first one (`foldl_push`).

The first row fixes the width even if it is refused itself, because its value is not finite.  This
is the one refusal that leaves a trace: the table has no rows, but it has a number of factors, and
rows with another number of levels are refused from then on (`offerAll_keeps`,
`refused_first_offer`).
-/

namespace SplitPlot

namespace Observation

variable {K : Type} [Scalar K]

/-- Whether a row has a finite value and the given number of levels. -/
def Fits (width : ℕ) (o : Observation K) : Prop :=
  o.levels.length = width ∧ Scalar.IsFinite o.value

instance (width : ℕ) : DecidablePred (Fits width : Observation K → Prop) := fun _ =>
  inferInstanceAs (Decidable (_ ∧ _))

end Observation

namespace ObservationTable

variable {K : Type} [Scalar K]

/-! ## One offer -/

/-- The cause for which a row that does not fit is refused. -/
def refusal (t : ObservationTable K) (width : ℕ) (o : Observation K) : DesignError :=
  if o.levels.length = width then .nonFiniteValue t.size
  else .rowWidthMismatch t.size width o.levels.length

/-- A table without a width takes that of the row. -/
theorem push_none (rows : List (Observation K)) (o : Observation K) :
    (⟨none, rows⟩ : ObservationTable K).push o =
      (⟨some o.levels.length, rows⟩ : ObservationTable K).push o := rfl

variable {width : ℕ} (rows : List (Observation K)) {o : Observation K}

theorem push_of_fits (h : o.Fits width) : (⟨some width, rows⟩ : ObservationTable K).push o =
    (.ok (), ⟨some width, rows ++ [o]⟩) := push_eq_ok h.1 h.2

/-- A row that does not fit leaves a table of a known width as it was. -/
theorem push_of_not_fits (h : ¬ o.Fits width) : (⟨some width, rows⟩ : ObservationTable K).push o =
    (.error (refusal ⟨some width, rows⟩ width o), ⟨some width, rows⟩) := by
  rw [push, refusal]
  dsimp only [Option.getD_some]
  by_cases hwidth : o.levels.length = width
  · rw [if_neg (not_not.mpr hwidth), if_pos hwidth, if_pos fun hfinite => h ⟨hwidth, hfinite⟩]
  · rw [if_pos hwidth, if_neg hwidth]

/-- A row is kept exactly if it fits. -/
theorem push_eq_ok_iff : ((⟨some width, rows⟩ : ObservationTable K).push o).1 = .ok () ↔
    o.Fits width := by
  by_cases h : o.Fits width
  · rw [push_of_fits rows h]
    exact iff_of_true rfl h
  · rw [push_of_not_fits rows h]
    exact iff_of_false (fun heq => nomatch heq) h

/-! ## Runs of offers -/

/-- Once the width is known a run of offers keeps the rows that fit. -/
theorem foldl_push (width : ℕ) (offered : List (Observation K)) :
    ∀ rows, offered.foldl (fun t o => (t.push o).2) (⟨some width, rows⟩ : ObservationTable K) =
      ⟨some width, rows ++ offered.filter (·.Fits width)⟩ := by
  induction offered with
  | nil =>
    intro rows
    rw [List.foldl_nil, List.filter_nil, List.append_nil]
  | cons o offered ih =>
    intro rows
    rw [List.foldl_cons]
    by_cases h : o.Fits width
    · have hfilter : (o :: offered).filter (·.Fits width) = o :: offered.filter (·.Fits width) :=
        List.filter_cons_of_pos (decide_eq_true h)
      rw [push_of_fits rows h, ih, hfilter, List.append_assoc]
      rfl
    · rw [push_of_not_fits rows h, ih, List.filter_cons_of_neg (by rwa [decide_eq_true_iff])]

/-- The table after offering rows one after another, whether they were kept or not. -/
def offerAll (offered : List (Observation K)) : ObservationTable K :=
  offered.foldl (fun t o => (t.push o).2) ∅

theorem offerAll_append (before after : List (Observation K)) : offerAll (before ++ after) =
    after.foldl (fun t o => (t.push o).2) (offerAll before) := List.foldl_append

theorem offerAll_concat (offered : List (Observation K)) (o : Observation K) :
    offerAll (offered ++ [o]) = ((offerAll offered).push o).2 := offerAll_append offered [o]

/-- The first row that is offered fixes the width, and its own fate is decided as that of the
others. -/
theorem offerAll_cons (o : Observation K) (offered : List (Observation K)) :
    offerAll (o :: offered) =
      ⟨some o.levels.length, (o :: offered).filter (·.Fits o.levels.length)⟩ := by
  have hfirst := foldl_push o.levels.length (o :: offered) []
  rw [List.foldl_cons, ← push_none] at hfirst
  exact hfirst

theorem factorCount_offerAll (offered : List (Observation K)) :
    (offerAll offered).factorCount = (offered.head?.map (·.levels.length)).getD 0 := by
  cases offered with
  | nil => rfl
  | cons o offered =>
    rw [offerAll_cons]
    rfl

/-- The rows of a table are those that were offered and fit it. -/
theorem rows_offerAll (offered : List (Observation K)) : (offerAll offered).rows =
    offered.filter (·.Fits (offerAll offered).factorCount) := by
  cases offered with
  | nil => rfl
  | cons o offered =>
    rw [offerAll_cons]
    rfl

/-- After the first offer the table has a width. -/
theorem exists_offerAll_eq {offered : List (Observation K)} (h : offered ≠ []) :
    offerAll offered = ⟨some (offerAll offered).factorCount, (offerAll offered).rows⟩ := by
  cases offered with
  | nil => exact absurd rfl h
  | cons o offered => rw [offerAll_cons]; rfl

/-- The first row that was kept has the width of the table. -/
theorem length_levels_of_mem_head? {offered : List (Observation K)} {o : Observation K}
    (h : o ∈ (offerAll offered).rows.head?) : o.levels.length = (offerAll offered).factorCount := by
  have hmem := List.mem_of_mem_head? h
  rw [rows_offerAll, List.mem_filter] at hmem
  exact (of_decide_eq_true hmem.2).1

/-- An offer is decided by the width that the table has afterwards. -/
theorem push_offerAll_eq_ok_iff (offered : List (Observation K)) (o : Observation K) :
    ((offerAll offered).push o).1 = .ok () ↔ o.Fits (offerAll (offered ++ [o])).factorCount := by
  cases offered with
  | nil =>
    rw [List.nil_append, offerAll_cons]
    exact push_eq_ok_iff []
  | cons first offered =>
    rw [List.cons_append, offerAll_cons, offerAll_cons]
    exact push_eq_ok_iff _

section Refused

variable {o : Observation K} {e : DesignError}

/-- The first row is refused only for its value, and it fixes the width all the same. -/
theorem offerAll_refused_first (h : ((∅ : ObservationTable K).push o).1 = .error e) :
    e = .nonFiniteValue 0 ∧ ∀ later, offerAll (o :: later) =
      ⟨some o.levels.length, later.filter (·.Fits o.levels.length)⟩ := by
  have hnot : ¬ o.Fits o.levels.length := by
    rw [← push_eq_ok_iff [], ← push_none]
    intro hok
    exact nomatch hok.symm.trans h
  have hpush := push_of_not_fits [] hnot
  rw [← push_none, refusal, if_pos rfl] at hpush
  refine ⟨(Except.error.inj ((congrArg Prod.fst hpush).symm.trans h)).symm, fun later => ?_⟩
  rw [offerAll_cons, List.filter_cons_of_neg (by rwa [decide_eq_true_iff])]

/-- A later row that is refused leaves no trace. -/
theorem offerAll_refused {offered : List (Observation K)} (hne : offered ≠ [])
    (h : ((offerAll offered).push o).1 = .error e) :
    e = refusal (offerAll offered) (offerAll offered).factorCount o ∧
      offerAll (offered ++ [o]) = offerAll offered ∧
      ∀ later, offerAll (offered ++ o :: later) = offerAll (offered ++ later) := by
  have hknown := exists_offerAll_eq hne
  have hnot : ¬ o.Fits (offerAll offered).factorCount := by
    rw [← push_eq_ok_iff (offerAll offered).rows, ← hknown]
    intro hok
    exact nomatch hok.symm.trans h
  have hpush := push_of_not_fits (offerAll offered).rows hnot
  rw [← hknown] at hpush
  have hsame : offerAll (offered ++ [o]) = offerAll offered := by
    rw [offerAll_concat, hpush]
  refine ⟨Except.error.inj (h.symm.trans (congrArg Prod.fst hpush)), hsame, fun later => ?_⟩
  rw [List.append_cons, offerAll_append, hsame, ← offerAll_append]

end Refused

/-- A table has no factors exactly if no row was offered to it, or a first row without levels. -/
theorem factorCount_offerAll_eq_zero_iff (offered : List (Observation K)) :
    (offerAll offered).factorCount = 0 ↔ ∀ first ∈ offered.head?, first.levels = [] := by
  rw [factorCount_offerAll]
  cases offered with
  | nil => exact iff_of_true rfl fun first hfirst => nomatch hfirst
  | cons o offered =>
    rw [List.head?_cons, Option.map_some, Option.getD_some, List.length_eq_zero_iff]
    exact ⟨fun h first hfirst => Option.some_inj.mp hfirst ▸ h, fun h => h o rfl⟩

/-- **A table keeps the rows that fit the first one.**  For every run of offers: the rows are, in
order, those that were offered with a finite value and as many levels as the first row that was
offered, and if there are rows, as many as the first of them.  A refused row leaves the rows as they
were.  Unless it is the first row that is offered, the run goes on as if it had not been offered at
all.  The first row is refused only for a value that is not finite, and then it still decides,
alone, which of the later rows are kept.  So a table, with rows or without, has factors exactly if
rows were offered to it and the first of them has levels. -/
theorem offerAll_keeps (offered : List (Observation K)) :
    (offerAll offered).factorCount = (offered.head?.map (·.levels.length)).getD 0 ∧
    ((offerAll offered).factorCount = 0 ↔ ∀ first ∈ offered.head?, first.levels = []) ∧
    (offerAll offered).rows = offered.filter (·.Fits (offerAll offered).factorCount) ∧
    (∀ first ∈ (offerAll offered).rows.head?,
      (offerAll offered).rows = offered.filter (·.Fits first.levels.length)) ∧
    ∀ o, (((offerAll offered).push o).1 = .ok () ↔ o.Fits (offerAll (offered ++ [o])).factorCount) ∧
      ∀ e, ((offerAll offered).push o).1 = .error e →
        (offerAll (offered ++ [o])).rows = (offerAll offered).rows ∧
        (offered ≠ [] → e = refusal (offerAll offered) (offerAll offered).factorCount o ∧
          offerAll (offered ++ [o]) = offerAll offered ∧
          ∀ later, offerAll (offered ++ o :: later) = offerAll (offered ++ later)) ∧
        (offered = [] → e = .nonFiniteValue 0 ∧ ∀ later, offerAll (o :: later) =
          ⟨some o.levels.length, later.filter (·.Fits o.levels.length)⟩) := by
  refine ⟨factorCount_offerAll offered, factorCount_offerAll_eq_zero_iff offered,
    rows_offerAll offered, fun first hfirst => ?_,
    fun o => ⟨push_offerAll_eq_ok_iff offered o, fun e he => ?_⟩⟩
  · rw [length_levels_of_mem_head? hfirst]
    exact rows_offerAll offered
  refine ⟨?_, fun hne => offerAll_refused hne he, ?_⟩
  · rcases eq_or_ne offered [] with rfl | hne
    · rw [List.nil_append, (offerAll_refused_first he).2 []]
      rfl
    · rw [(offerAll_refused hne he).2.1]
  · rintro rfl
    exact offerAll_refused_first he

/-- A first row with a value that is no number is refused, and the table, which has no rows, has a
factor; it then refuses a row of two levels that it would have kept as its first. -/
theorem refused_first_offer :
    let refused : Observation Float := ⟨.int 1, [.text "a"], 0 / 0⟩
    let wide : Observation Float := ⟨.int 2, [.text "a", .text "b"], 3⟩
    ((offerAll []).push refused).1 = .error (.nonFiniteValue 0) ∧
      (offerAll [refused]).rows = [] ∧ (offerAll [refused]).factorCount = 1 ∧
      (offerAll [refused, wide]).rows = [] ∧ (offerAll [wide]).rows = [wide] := by
  intro refused wide
  have hnot : ¬ refused.Fits 1 := by decide
  have hcause : ((offerAll []).push refused).1 = .error (.nonFiniteValue 0) :=
    congrArg Prod.fst (push_of_not_fits [] hnot)
  obtain ⟨-, -, -, -, hoffer⟩ := offerAll_keeps ([] : List (Observation Float))
  obtain ⟨hrows, -, hfirst⟩ := (hoffer refused).2 _ hcause
  obtain ⟨-, hlater⟩ := hfirst rfl
  refine ⟨hcause, hrows, ?_, ?_, ?_⟩
  · rw [hlater]
    rfl
  · rw [hlater]
    decide
  · rw [offerAll_cons]
    decide

end ObservationTable

end SplitPlot
