import Mathlib
import SplitPlot.Proofs.Exact
import SplitPlot.Proofs.RowOrder

/-!
# Replicates in one pass

`ObservationTable.deduplicate` says what is left of a table, key by key.  The same rows are found in
a single pass over the table, which keeps one running tally for each key it has met, in ascending
order of the keys, and stops at the first key it meets again where replicates are to be rejected
(`ObservationTable.collapse`).

The pass is followed by what it has seen.  After any number of rows its entries are the tallies of
those rows (`tallies`): one more row changes them as it should (`enter_tallies`), and so the pass
ends with the tallies of the whole table (`foldlM_record_average`) or at the first row that repeats
a key (`foldlM_record_reject`).

What is left of a table is also described without any computation: the rows are in ascending order,
their keys are the keys of the table, and each has the mean of all values under its key
(`ObservationTable.Condenses`).  Only one list of rows is like that (`condenses_iff`).
-/

namespace SplitPlot

/-! ## Running tallies -/

/-- The sum of the values met so far and their number. -/
structure Tally (K : Type) where
  /-- The sum of the values. -/
  sum : K
  /-- The number of values. -/
  count : ℕ

section Pass

variable {K : Type} [Scalar K]

/-- Adds a value to the tally of a key, or starts a tally of it in its place among ascending
keys. -/
def enter (key : List Level) (value : K) :
    List (List Level × Tally K) → List (List Level × Tally K)
  | [] => [(key, ⟨value, 1⟩)]
  | e :: entries =>
    if key < e.1 then (key, ⟨value, 1⟩) :: e :: entries
    else if e.1 < key then e :: enter key value entries
    else (e.1, ⟨e.2.sum + value, e.2.count + 1⟩) :: entries

/-- The observation that an entry stands for. -/
def settle (e : List Level × Tally K) : Observation K where
  subject := e.1.headD default
  levels := e.1.tail
  value := e.2.sum / (e.2.count : K)

/-- Takes one row, with its number, into the entries, unless it is a replicate and these are to be
rejected. -/
def record (policy : DuplicatePolicy) (entries : List (List Level × Tally K))
    (r : Observation K × ℕ) : Except DesignError (List (List Level × Tally K)) :=
  if policy = .reject ∧ r.1.key ∈ entries.map (·.1) then
    .error (.duplicateObservation r.2 r.1.subject)
  else .ok (enter r.1.key r.1.value entries)

/-- The rows that are left of a table, found in one pass. -/
def ObservationTable.collapse (t : ObservationTable K) (policy : DuplicatePolicy) :
    Except DesignError (List (Observation K)) :=
  (t.rows.zipIdx.foldlM (record policy) []).map fun entries => entries.map settle

theorem key_ne_of_lt {k k' : List Level} (h : k < k') : k ≠ k' := by
  rintro rfl
  exact Std.Asymm.asymm (r := (· < ·)) k k h h

section Enter

variable {key : List Level} {value : K} {before after : List Level → Tally K}
  (hother : ∀ k ≠ key, after k = before k)

include hother

omit [Scalar K] in
/-- Keys behind that of the value keep their tallies. -/
theorem map_tally_of_lt {keys : List (List Level)} (h : ∀ k ∈ keys, key < k) :
    (keys.map fun k => (k, before k)) = keys.map fun k => (k, after k) := by
  refine List.map_congr_left fun k hk => ?_
  rw [hother k (key_ne_of_lt (h k hk)).symm]

/-- A value that is entered changes the tally of its key, or starts it. -/
theorem enter_map {keys : List (List Level)} (hkeys : keys.Pairwise (· < ·))
    (hnew : key ∉ keys → after key = ⟨value, 1⟩)
    (hold : key ∈ keys → after key = ⟨(before key).sum + value, (before key).count + 1⟩) :
    enter key value (keys.map fun k => (k, before k)) =
      (insertAscending key keys).map fun k => (k, after k) := by
  induction keys with
  | nil =>
    rw [insertAscending, List.map_singleton, hnew List.not_mem_nil]
    rfl
  | cons k keys ih =>
    obtain ⟨hk, hrest⟩ := List.pairwise_cons.mp hkeys
    rw [List.map_cons, enter, insertAscending]
    by_cases hlt : key < k
    · have hbehind : ∀ k' ∈ k :: keys, key < k' :=
        List.forall_mem_cons.mpr ⟨hlt, fun k' hk' => Trans.trans hlt (hk k' hk')⟩
      have hmem : key ∉ k :: keys := fun hmem => key_ne_of_lt (hbehind key hmem) rfl
      rw [if_pos hlt, if_pos hlt, List.map_cons, hnew hmem, ← map_tally_of_lt hother hbehind,
        List.map_cons]
    by_cases hgt : k < key
    · have hne := key_ne_of_lt hgt
      rw [if_neg hlt, if_pos hgt, if_neg hlt, if_pos hgt, List.map_cons, hother k hne,
        ih hrest (fun hmem => hnew ?_) fun hmem => hold (List.mem_cons_of_mem k hmem)]
      rw [List.mem_cons, not_or]
      exact ⟨hne.symm, hmem⟩
    · obtain rfl : key = k := Std.Trichotomous.trichotomous (r := (· < ·)) key k hlt hgt
      rw [if_neg hlt, if_neg hgt, if_neg hlt, if_neg hgt, List.map_cons, hold List.mem_cons_self,
        map_tally_of_lt hother hk]

end Enter

/-! ## What a pass has seen -/

/-- The values of the rows with a given key. -/
def valuesAt (rows : List (Observation K)) (key : List Level) : List K :=
  (rows.filter fun o => o.key == key).map (·.value)

/-- The tallies of rows, in ascending order of their keys. -/
def tallies (rows : List (Observation K)) : List (List Level × Tally K) :=
  (ascending (rows.map Observation.key)).map fun key =>
    (key, ⟨total (valuesAt rows key), (valuesAt rows key).length⟩)

omit [Scalar K] in
theorem valuesAt_concat_self (rows : List (Observation K)) (o : Observation K) :
    valuesAt (rows ++ [o]) o.key = valuesAt rows o.key ++ [o.value] := by
  have hself : ([o].filter fun o' => o'.key == o.key) = [o] :=
    List.filter_cons_of_pos (beq_self_eq_true _)
  rw [valuesAt, List.filter_append, List.map_append, hself]
  rfl

omit [Scalar K] in
theorem valuesAt_concat_of_ne (rows : List (Observation K)) {o : Observation K} {key : List Level}
    (h : key ≠ o.key) : valuesAt (rows ++ [o]) key = valuesAt rows key := by
  have hbeq : (o.key == key) = false := beq_false_of_ne h.symm
  rw [valuesAt, List.filter_append, List.filter_cons_of_neg (by rw [hbeq]; decide),
    List.filter_nil, List.append_nil]
  rfl

omit [Scalar K] in
theorem valuesAt_eq_nil_iff {rows : List (Observation K)} {key : List Level} :
    valuesAt rows key = [] ↔ key ∉ rows.map Observation.key := by
  rw [valuesAt, List.map_eq_nil_iff, List.filter_eq_nil_iff, List.mem_map, not_exists]
  refine forall_congr' fun o => ?_
  rw [not_and, beq_iff_eq]

/-- Whether the key of a row, given with its number, occurs among the rows before it. -/
def repeatsKey (rows : List (Observation K)) (r : Observation K × ℕ) : Bool :=
  (rows.take r.2).any fun o => o.key == r.1.key

/-- The tallies are settled by the averages. -/
theorem map_settle_tallies (t : ObservationTable K) : (tallies t.rows).map settle = t.averages := by
  rw [tallies, List.map_map, ObservationTable.averages]
  rfl

theorem map_fst_tallies (rows : List (Observation K)) :
    (tallies rows).map (·.1) = ascending (rows.map Observation.key) := by
  rw [tallies, List.map_map]
  exact List.map_id _

end Pass

/-- One more row changes the tallies as it is entered. -/
theorem enter_tallies (rows : List (Observation ℝ)) (o : Observation ℝ) :
    enter o.key o.value (tallies rows) = tallies (rows ++ [o]) := by
  have hkeys : ascending ((rows ++ [o]).map Observation.key) =
      insertAscending o.key (ascending (rows.map Observation.key)) := by
    rw [← ascending_cons]
    refine ascending_congr fun k => ?_
    rw [List.map_append, List.mem_append, List.map_singleton, List.mem_singleton, List.mem_cons,
      or_comm]
  rw [tallies, tallies, hkeys]
  refine enter_map (fun k hk => ?_) (pairwise_ascending _) (fun hnew => ?_) fun _ => ?_
  · rw [valuesAt_concat_of_ne rows hk]
  · -- a sum that starts at zero is the first value
    rw [mem_ascending, ← valuesAt_eq_nil_iff] at hnew
    rw [valuesAt_concat_self, hnew, List.nil_append, total_eq_sum, List.sum_singleton]
    rfl
  · rw [valuesAt_concat_self, total_concat, List.length_append]
    rfl

/-- Where replicates are averaged every row is entered. -/
theorem foldlM_record_average (rest : List (Observation ℝ)) :
    ∀ (seen : List (Observation ℝ)) (i : ℕ),
      (rest.zipIdx i).foldlM (record .average) (tallies seen) = .ok (tallies (seen ++ rest)) := by
  induction rest with
  | nil =>
    intro seen i
    rw [List.append_nil]
    rfl
  | cons o rest ih =>
    intro seen i
    have hstep : record .average (tallies seen) (o, i) = .ok (tallies (seen ++ [o])) := by
      rw [record, if_neg (fun h => nomatch h.1), ← enter_tallies]
    rw [List.zipIdx_cons, List.foldlM_cons, hstep, ok_bind, ih, List.append_assoc]
    rfl

/-- Where replicates are rejected the pass stops at the first row with a key that it has seen. -/
theorem foldlM_record_reject (rest : List (Observation ℝ)) : ∀ seen : List (Observation ℝ),
    (rest.zipIdx seen.length).foldlM (record .reject) (tallies seen) =
      match (rest.zipIdx seen.length).find? (repeatsKey (seen ++ rest)) with
      | some r => .error (.duplicateObservation r.2 r.1.subject)
      | none => .ok (tallies (seen ++ rest)) := by
  induction rest with
  | nil =>
    intro seen
    rw [List.append_nil]
    rfl
  | cons o rest ih =>
    intro seen
    have hmet : repeatsKey (seen ++ o :: rest) (o, seen.length) = true ↔
        o.key ∈ (tallies seen).map (·.1) := by
      rw [repeatsKey, List.take_left, List.any_eq_true, map_fst_tallies, mem_ascending,
        List.mem_map]
      exact exists_congr fun o' => and_congr_right fun _ => beq_iff_eq
    rw [List.zipIdx_cons, List.foldlM_cons]
    by_cases h : o.key ∈ (tallies seen).map (·.1)
    · rw [List.find?_cons_of_pos (hmet.mpr h), record, if_pos ⟨rfl, h⟩]
      rfl
    · have hstep :
          record .reject (tallies seen) (o, seen.length) = .ok (tallies (seen ++ [o])) := by
        rw [record, if_neg fun hand => h hand.2, ← enter_tallies]
      have hrest := ih (seen ++ [o])
      rw [List.length_append, List.length_singleton, List.append_assoc, List.singleton_append]
        at hrest
      rw [List.find?_cons_of_neg (mt hmet.mp h), hstep, ok_bind, hrest]

namespace ObservationTable

theorem firstRepeat?_eq {K : Type} (t : ObservationTable K) : t.firstRepeat? =
    (t.rows.zipIdx.find? (repeatsKey t.rows)).map fun r => (r.2, r.1) := rfl

/-- One pass finds what is left of a table, or the replicate that is reported. -/
theorem deduplicate_eq_collapse (t : ObservationTable ℝ) (policy : DuplicatePolicy) :
    t.deduplicate policy = t.collapse policy := by
  cases policy with
  | average =>
    have hpass : t.rows.zipIdx.foldlM (record .average) [] = .ok (tallies t.rows) :=
      foldlM_record_average t.rows [] 0
    rw [collapse, hpass]
    exact congrArg Except.ok (map_settle_tallies t).symm
  | reject =>
    have hpass : t.rows.zipIdx.foldlM (record .reject) [] =
        match t.rows.zipIdx.find? (repeatsKey t.rows) with
        | some r => .error (.duplicateObservation r.2 r.1.subject)
        | none => .ok (tallies t.rows) := foldlM_record_reject t.rows []
    rw [collapse, hpass, deduplicate, firstRepeat?_eq]
    cases t.rows.zipIdx.find? (repeatsKey t.rows) with
    | some r => rfl
    | none => exact congrArg Except.ok (map_settle_tallies t).symm

/-! ## The replicate that is reported -/

/-- Whether the row with a number has the key of a row before it. -/
def RepeatsAt {K : Type} (t : ObservationTable K) (i : ℕ) : Prop :=
  ∃ j < i, ∃ o o', t.rows[i]? = some o ∧ t.rows[j]? = some o' ∧ o'.key = o.key

section Repeats

variable {K : Type} {t : ObservationTable K} {i : ℕ} {o : Observation K}

theorem repeatsKey_eq_true_iff (h : t.rows[i]? = some o) :
    repeatsKey t.rows (o, i) = true ↔ t.RepeatsAt i := by
  rw [repeatsKey, List.any_eq_true]
  constructor
  · rintro ⟨o', ho', hkey⟩
    obtain ⟨j, hj, rfl⟩ := List.mem_take_iff_getElem.mp ho'
    exact ⟨j, (lt_min_iff.mp hj).1, o, _, h, List.getElem?_eq_getElem _, beq_iff_eq.mp hkey⟩
  · rintro ⟨j, hj, p, o', hp, ho', hkey⟩
    obtain rfl := Option.some_inj.mp (h.symm.trans hp)
    obtain ⟨hlt, rfl⟩ := List.getElem?_eq_some_iff.mp ho'
    exact ⟨_, List.mem_take_iff_getElem.mpr ⟨j, lt_min hj hlt, rfl⟩, beq_iff_eq.mpr hkey⟩

/-- The replicate that is reported is the first row that repeats a key. -/
theorem firstRepeat?_eq_some_iff : t.firstRepeat? = some (i, o) ↔
    t.rows[i]? = some o ∧ t.RepeatsAt i ∧ ∀ i' < i, ¬ t.RepeatsAt i' := by
  rw [firstRepeat?_eq, Option.map_eq_some_iff]
  constructor
  · rintro ⟨r, hfind, heq⟩
    obtain ⟨hany, n, hn, hget, hbefore⟩ := List.find?_eq_some_iff_getElem.mp hfind
    rw [List.getElem_zipIdx, zero_add] at hget
    subst hget
    obtain ⟨rfl, rfl⟩ := Prod.mk.inj heq
    rw [List.length_zipIdx] at hn
    refine ⟨List.getElem?_eq_getElem hn, ?_, fun j hj hrepeats => ?_⟩
    · exact (repeatsKey_eq_true_iff (List.getElem?_eq_getElem hn)).mp hany
    · have hj' := List.getElem?_eq_getElem (hj.trans hn)
      have hnot := hbefore j hj
      rw [List.getElem_zipIdx, zero_add, (repeatsKey_eq_true_iff hj').mpr hrepeats] at hnot
      exact Bool.false_ne_true hnot
  · rintro ⟨ho, hrepeats, hfirst⟩
    obtain ⟨hi, rfl⟩ := List.getElem?_eq_some_iff.mp ho
    refine ⟨_, List.find?_eq_some_iff_getElem.mpr ⟨(repeatsKey_eq_true_iff ho).mpr hrepeats, i,
      by rwa [List.length_zipIdx], by rw [List.getElem_zipIdx, zero_add], fun j hj => ?_⟩, rfl⟩
    have hj' := List.getElem?_eq_getElem (hj.trans hi)
    rw [List.getElem_zipIdx, zero_add, Bool.not_eq_true', ← Bool.not_eq_true,
      repeatsKey_eq_true_iff hj']
    exact hfirst j hj

end Repeats

/-! ## What is left of a table -/

/-- One row for each key of a table, in ascending order of subject and levels, with the mean of all
values under that key. -/
structure Condenses (t : ObservationTable ℝ) (rows : List (Observation ℝ)) : Prop where
  /-- The rows stand in ascending order, and no two have one subject and the same levels. -/
  sorted : rows.Pairwise fun o o' =>
    o.subject < o'.subject ∨ o.subject = o'.subject ∧ o.levels < o'.levels
  /-- A subject has a row with given levels exactly if the table has one. -/
  keys : ∀ s levels, (∃ r ∈ rows, r.subject = s ∧ r.levels = levels) ↔
    ∃ o ∈ t.rows, o.subject = s ∧ o.levels = levels
  /-- Every value is the mean of the values of the table under its key. -/
  value : ∀ r ∈ rows, r.value = (valuesAt t.rows r.key).sum / (valuesAt t.rows r.key).length

section Condenses

variable {t : ObservationTable ℝ} {rows : List (Observation ℝ)}

theorem cons_mem_map_key {s : Level} {levels : List Level} :
    s :: levels ∈ rows.map Observation.key ↔ ∃ r ∈ rows, r.subject = s ∧ r.levels = levels := by
  rw [List.mem_map]
  refine exists_congr fun r => and_congr_right fun _ => ?_
  rw [Observation.key, List.cons.injEq]

theorem pairwise_map_key_iff : (rows.map Observation.key).Pairwise (· < ·) ↔
    rows.Pairwise fun o o' =>
      o.subject < o'.subject ∨ o.subject = o'.subject ∧ o.levels < o'.levels := by
  rw [List.pairwise_map]
  simp only [Observation.key, List.cons_lt_cons_iff]

/-- The rows that are left have the keys of the table in ascending order. -/
theorem Condenses.map_key (h : t.Condenses rows) :
    rows.map Observation.key = ascending (t.rows.map Observation.key) := by
  refine eq_of_pairwise_of_mem_iff (pairwise_map_key_iff.mpr h.sorted) (pairwise_ascending _)
    fun key => ?_
  rw [mem_ascending]
  cases key with
  | nil =>
    have hnil : ∀ rows : List (Observation ℝ), [] ∉ rows.map Observation.key := by
      intro rows hmem
      obtain ⟨o, -, ho⟩ := List.mem_map.mp hmem
      exact List.cons_ne_nil _ _ ho
    exact iff_of_false (hnil rows) (hnil t.rows)
  | cons s levels =>
    rw [cons_mem_map_key, cons_mem_map_key]
    exact h.keys s levels

theorem value_average (key : List Level) : (t.average key).value =
    (valuesAt t.rows key).sum / (valuesAt t.rows key).length := mean_eq _

theorem condenses_averages : t.Condenses t.averages where
  sorted := by
    rw [← pairwise_map_key_iff, map_key_averages]
    exact pairwise_ascending _
  keys := by
    intro s levels
    rw [← cons_mem_map_key, ← cons_mem_map_key]
    exact mem_map_key_averages
  value := by
    intro r hr
    obtain ⟨key, hkey, rfl⟩ := List.mem_map.mp hr
    obtain ⟨o, -, rfl⟩ := List.mem_map.mp (mem_ascending.mp hkey)
    exact value_average o.key

/-- The averages of a table are the only rows that it is condensed to. -/
theorem condenses_iff : t.Condenses rows ↔ rows = t.averages := by
  refine ⟨fun h => ?_, fun h => h ▸ condenses_averages⟩
  have haverage : ∀ r ∈ rows, t.average r.key = r := by
    intro r hr
    have hvalue := (value_average r.key).trans (h.value r hr).symm
    show (⟨r.subject, r.levels, (t.average r.key).value⟩ : Observation ℝ) = r
    rw [hvalue]
  rw [averages, ← h.map_key, List.map_map]
  exact ((List.map_congr_left haverage).trans (List.map_id rows)).symm

/-- What a table is condensed to is condensed already, whatever width the table of it has. -/
theorem Condenses.averages_eq (h : t.Condenses rows) (width? : Option ℕ) :
    (⟨width?, rows⟩ : ObservationTable ℝ).averages = rows := by
  refine averages_eq_rows ?_ fun r _ => mean_singleton r.value
  show ascending (rows.map Observation.key) = rows.map Observation.key
  rw [h.map_key]
  exact ascending_congr fun _ => mem_ascending

end Condenses

/-- **Replicates are averaged exactly, or the first is reported.**  In exact arithmetic, for every
table: the single pass over its rows has the same outcome as the description key by key.  Where
replicates are averaged, the outcome is the one list that stands in ascending order, has the keys of
the table and the mean of all values under each key, and averaging that list again changes nothing.
Where they are rejected, the table is refused exactly if two rows have one key; the row that is
reported is the first whose key occurs before it, with the subject of that row; and otherwise the
outcome is the same. -/
theorem deduplicate_exact (t : ObservationTable ℝ) :
    (∀ policy, t.deduplicate policy = t.collapse policy) ∧
    (∃ rows, t.deduplicate .average = .ok rows ∧ t.Condenses rows ∧
      (∀ rows', t.Condenses rows' → rows' = rows) ∧
      ∀ width?, (⟨width?, rows⟩ : ObservationTable ℝ).deduplicate .average = .ok rows) ∧
    ((∃ e, t.deduplicate .reject = .error e) ↔ ¬ (t.rows.map Observation.key).Nodup) ∧
    (∀ e, t.deduplicate .reject = .error e ↔ ∃ i o, t.rows[i]? = some o ∧ t.RepeatsAt i ∧
      (∀ i' < i, ¬ t.RepeatsAt i') ∧ e = .duplicateObservation i o.subject) ∧
    ((t.rows.map Observation.key).Nodup → t.deduplicate .reject = t.deduplicate .average) := by
  have herror : ∀ e, t.deduplicate .reject = .error e ↔ ∃ i o, t.firstRepeat? = some (i, o) ∧
      e = .duplicateObservation i o.subject := by
    intro e
    rw [deduplicate]
    cases t.firstRepeat? with
    | none => simp
    | some r =>
      constructor
      · intro h
        exact ⟨r.1, r.2, rfl, (Except.error.inj h).symm⟩
      · rintro ⟨i, o, hr, rfl⟩
        obtain rfl := Option.some_inj.mp hr
        rfl
  refine ⟨t.deduplicate_eq_collapse, ⟨t.averages, rfl, condenses_averages,
    fun rows' h => condenses_iff.mp h,
    fun width? => congrArg Except.ok (condenses_averages.averages_eq width?)⟩, ?_, fun e => ?_,
    fun hnodup => deduplicate_of_nodup hnodup .reject⟩
  · rw [← firstRepeat?_eq_none_iff, ← ne_eq, Option.ne_none_iff_exists']
    constructor
    · rintro ⟨e, he⟩
      obtain ⟨i, o, hr, -⟩ := (herror e).mp he
      exact ⟨_, hr⟩
    · rintro ⟨⟨i, o⟩, hr⟩
      exact ⟨_, (herror _).mpr ⟨i, o, hr, rfl⟩⟩
  · rw [herror]
    refine exists_congr fun i => exists_congr fun o => ?_
    rw [firstRepeat?_eq_some_iff, and_assoc, and_assoc]

/-- Two subjects, a name and a number, whose replicates alternate. -/
noncomputable def interleavedScores : ObservationTable ℝ :=
  ⟨some 1, [⟨.text "b", [.int 1], (4 : ℕ)⟩, ⟨.int 7, [.text "x"], 1⟩,
    ⟨.text "b", [.int 1], (6 : ℕ)⟩, ⟨.int 7, [.text "x"], (3 : ℕ)⟩]⟩

/-- The number stands in front of the name, each with its mean, and stays there; the first replicate
is the third row. -/
theorem deduplicate_interleavedScores :
    interleavedScores.deduplicate .average =
      .ok [⟨.int 7, [.text "x"], 2⟩, ⟨.text "b", [.int 1], 5⟩] ∧
    (⟨some 1, [⟨.int 7, [.text "x"], 2⟩, ⟨.text "b", [.int 1], 5⟩]⟩ :
        ObservationTable ℝ).deduplicate .average =
      .ok [⟨.int 7, [.text "x"], 2⟩, ⟨.text "b", [.int 1], 5⟩] ∧
    interleavedScores.deduplicate .reject = .error (.duplicateObservation 2 (.text "b")) := by
  obtain ⟨-, ⟨rows, hrows, -, -, hagain⟩, -, herror, -⟩ := deduplicate_exact interleavedScores
  have hmeans : interleavedScores.deduplicate .average =
      .ok [⟨.int 7, [.text "x"], mean [1, 3]⟩, ⟨.text "b", [.int 1], mean [4, 6]⟩] := rfl
  have hseven : mean [(1 : ℝ), 3] = 2 := by
    rw [mean_eq]
    norm_num
  have hb : mean [(4 : ℝ), 6] = 5 := by
    rw [mean_eq]
    norm_num
  rw [hseven, hb] at hmeans
  obtain rfl := Except.ok.inj (hmeans.symm.trans hrows)
  refine ⟨hmeans, hagain (some 1),
    (herror _).mpr ⟨2, _, rfl, ⟨0, by decide, _, _, rfl, rfl, rfl⟩, ?_, rfl⟩⟩
  -- of the two rows before it only the second has a row before it
  rintro i' hi' ⟨j, hj, o, o', ho, ho', hkey⟩
  obtain ⟨rfl, rfl⟩ : i' = 1 ∧ j = 0 := by omega
  obtain rfl := Option.some_inj.mp ho
  obtain rfl := Option.some_inj.mp ho'
  revert hkey
  decide

end ObservationTable

end SplitPlot
