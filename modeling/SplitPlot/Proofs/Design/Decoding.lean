import Mathlib
import SplitPlot.Proofs.Design.Observations

/-!
# Reading a design back

A design holds the rows of its table four times over: as lists of names, as observations in codes,
as one cell between subjects for each subject, and as a table of scores.  Each is filled in a loop
of its own, and the two numberings of the axes meet in none of them.  This file says that nothing is
lost or invented on the way.

## Names

The subjects and the levels of a factor are listed in ascending order, and they are the ones that
the rows have (`mem_subjects_ofTable`, `mem_levels_ofTable`).  Averaging replicates has no part in
this, since it keeps the keys.

## Codes

`Coding.decode?` looks the codes of an observation up in these lists.  It gives nothing if a code is
out of range, and a name that could not be found was given such a code.  So that it gives a row says
that all names were found: the observations of a table are its averaged rows, one for one and in
their order (`map_decode?_ofTable`).

## Places

The place of an observation is its subject and its levels within subjects.  The places of all
observations are the positions of the table of scores, each of them once (`Accepted.perm_places`).
The acceptance of a design has only counted the observations of a subject; that no two of them share
a place comes from its standing in one cell between subjects.

`Design.Records` puts these together.
-/

namespace SplitPlot

variable {K : Type}

/-! ## Codes -/

/-- Names that occur in the lists they are looked up in are found again at their places. -/
theorem mapM_getElem?_idxOf :
    ∀ {levels : List Level} {factors : List Factor}, levels.length = factors.length →
      (∀ e ∈ levels.zip factors, e.1 ∈ e.2.levels) →
        (((levels.zip factors).map fun e => e.2.levels.idxOf e.1).zip factors).mapM
          (fun e => e.2.levels[e.1]?) = some levels
  | [], [], _, _ => rfl
  | l :: levels, f :: factors, hlen, h => by
    obtain ⟨hl, hlevels⟩ := List.forall_mem_cons.mp h
    have hrest := mapM_getElem?_idxOf (Nat.succ.inj hlen) hlevels
    simp only [List.zip_cons_cons, List.map_cons, List.mapM_cons, hrest,
      List.getElem?_idxOf hl]
    rfl

namespace Coding

/-- The row that an observation in codes stands for, if its codes are places in the lists of
names. -/
def decode? (c : Coding K) (o : CodedObservation K) : Option (Observation K) := do
  let subject ← c.subjects[o.subject]?
  let levels ← (o.levels.zip c.factors).mapM fun e => e.2.levels[e.1]?
  return ⟨subject, levels, o.value⟩

theorem decode?_eq_some {c : Coding K} {o : CodedObservation K} {subject : Level}
    {levels : List Level} (hsubject : c.subjects[o.subject]? = some subject)
    (hlevels : (o.levels.zip c.factors).mapM (fun e => e.2.levels[e.1]?) = some levels) :
    c.decode? o = some ⟨subject, levels, o.value⟩ := by
  rw [decode?, hsubject, hlevels]
  rfl

end Coding

/-- A row is recovered from its codes. -/
theorem decode?_code {rows : List (Observation K)} {names : List String} {r : Observation K}
    (hr : r ∈ rows) (hlen : r.levels.length = names.length) :
    (rowCoding rows names).decode? (code rows names r) = some r := by
  have hsubject : (ascending (rows.map (·.subject)))[(ascending (rows.map (·.subject))).idxOf
      r.subject]? = some r.subject := List.getElem?_idxOf (mem_subjects.mpr ⟨r, hr, rfl⟩)
  have hlength : r.levels.length = (columnFactors rows names).length := by
    rw [hlen, columnFactors, List.length_map, List.length_zipIdx]
  have hfound : ∀ e ∈ r.levels.zip (columnFactors rows names), e.1 ∈ e.2.levels := by
    intro e he
    obtain ⟨f, hf⟩ := List.mem_iff_getElem?.mp he
    obtain ⟨hl, hfactor⟩ := List.getElem?_zip_eq_some.mp hf
    have hlt : f < names.length := hlen ▸ (List.getElem?_eq_some_iff.mp hl).1
    rw [getElem?_columnFactors hlt, Option.some_inj] at hfactor
    rw [← hfactor]
    exact mem_columnLevels.mpr ⟨r, hr, hl⟩
  exact Coding.decode?_eq_some hsubject (mapM_getElem?_idxOf hlength hfound)

namespace Design

variable [Scalar K]

/-! ## Places -/

namespace Accepted

variable {d : Design K} (hd : d.Accepted)

include hd

/-- The values of the observations are the entries of the table of scores, each of them once. -/
theorem perm_values : (d.observations.map (·.value)).Perm d.scores.toList := by
  have hvalues : d.observations.map (·.value) =
      (d.observations.map fun o => o.subject :: o.levelsAt d.withinFactors).map d.scores.get := by
    rw [List.map_map]
    exact List.map_congr_left fun o ho => (hd.get_scores_observation ho).symm
  rw [hvalues, Grid.toList_eq]
  exact hd.perm_places.map _

theorem getElem?_subjectCells_observation {o : CodedObservation K} (ho : o ∈ d.observations) :
    d.subjectCells[o.subject]? = some (flatIndex (o.levelsAt d.betweenFactors) d.betweenShape) := by
  have hlt : o.subject < d.subjectCells.length :=
    hd.length_subjectCells.symm ▸ hd.coherent.subject_lt o ho
  rw [← hd.getD_subjectCells_observation ho, List.getElem?_eq_getElem hlt,
    List.getD_eq_getElem _ _ hlt]

/-- The cells between subjects are those in which a subject stands. -/
theorem mem_subjectCells_iff {cell : ℕ} : cell ∈ d.subjectCells ↔ cell < d.betweenCellCount :=
  ⟨hd.lt_of_mem_subjectCells cell, hd.mem_subjectCells⟩

end Accepted

/-! ## Names -/

section Names

variable {t : ObservationTable K} {settings : Settings} {d : Design K} (ht : t.Built)
  (h : ofTable t settings = .ok d)

include ht h

theorem subjects_ofTable : d.subjects = ascending (t.averages.map (·.subject)) := by
  rw [eq_of_ofTable ht h]
  rfl

theorem levels_ofTable {f : ℕ} (hf : f < t.factorCount) :
    (d.factor f).levels = columnLevels t.averages f := by
  obtain ⟨hadm, -, -⟩ := (ofTable_eq_ok_iff t settings d).mp h
  rw [eq_of_ofTable ht h]
  show ((tableCoding t settings).factor f).levels = _
  rw [tableCoding, factor_rowCoding (hadm.length_names.symm ▸ hf)]

/-- The subjects of a design are those of the rows. -/
theorem mem_subjects_ofTable {s : Level} : s ∈ d.subjects ↔ ∃ r ∈ t.rows, r.subject = s := by
  rw [subjects_ofTable ht h, mem_subjects]
  constructor
  · rintro ⟨r, hr, rfl⟩
    obtain ⟨q, hq, hsubject, -⟩ := keysWithin_averages r hr
    exact ⟨q, hq, hsubject⟩
  · rintro ⟨r, hr, rfl⟩
    obtain ⟨q, hq, hsubject, -⟩ := keysWithin_rows r hr
    exact ⟨q, hq, hsubject⟩

/-- The levels of a factor are those that occur in its column. -/
theorem mem_levels_ofTable {f : ℕ} (hf : f < t.factorCount) {l : Level} :
    l ∈ (d.factor f).levels ↔ Occurs t.rows f l := by
  rw [levels_ofTable ht h hf, mem_columnLevels]
  exact ⟨.mono keysWithin_averages, .mono keysWithin_rows⟩

/-- The code of an averaged row, by the names of the design. -/
theorem levels_code_ofTable {r : Observation K} {f : ℕ} {l : Level} (hf : f < t.factorCount)
    (hl : r.levels[f]? = some l) :
    (code t.averages (settings.resolveNames t.factorCount) r).levels.getD f 0 =
      (d.factor f).levels.idxOf l := by
  obtain ⟨hadm, -, -⟩ := (ofTable_eq_ok_iff t settings d).mp h
  rw [levels_ofTable ht h hf, getD_levels_code hl (hadm.length_names.symm ▸ hf)]

theorem subject_code_ofTable (r : Observation K) :
    (code t.averages (settings.resolveNames t.factorCount) r).subject =
      d.subjects.idxOf r.subject := by
  rw [subjects_ofTable ht h]
  rfl

/-- Looked up again, the observations are the averaged rows. -/
theorem map_decode?_ofTable : d.observations.map d.decode? = t.averages.map some := by
  obtain ⟨hadm, -, -⟩ := (ofTable_eq_ok_iff t settings d).mp h
  rw [eq_of_ofTable ht h]
  show (t.averages.map (code t.averages _)).map (tableCoding t settings).decode? = _
  rw [List.map_map]
  exact List.map_congr_left fun r hr =>
    decode?_code hr ((length_levels_averages ht r hr).trans hadm.length_names.symm)

end Names

/-! ## The rows in a design -/

/-- The design holds the rows, and nothing besides. -/
structure Records (d : Design K) (rows : List (Observation K)) : Prop where
  /-- Subjects are listed in ascending order, each once. -/
  subjects_ascending : d.subjects.Pairwise (· < ·)
  /-- They are the subjects of the rows. -/
  mem_subjects : ∀ s, s ∈ d.subjects ↔ ∃ r ∈ rows, r.subject = s
  /-- The levels of a factor are listed in ascending order, each once. -/
  levels_ascending : ∀ f < d.factorCount, (d.factor f).levels.Pairwise (· < ·)
  /-- They are the levels of the rows in the column of the factor. -/
  mem_levels : ∀ f < d.factorCount, ∀ l, l ∈ (d.factor f).levels ↔
    ∃ r ∈ rows, r.levels[f]? = some l
  /-- An observation has one code for each factor. -/
  length_levels : ∀ o ∈ d.observations, o.levels.length = d.factorCount
  /-- The observations are the rows in codes, in their order, and no lookup of a name fails. -/
  decoded : d.observations.map d.decode? = rows.map some
  /-- A subject stands in the cell of the levels of its observations between subjects. -/
  cell : ∀ o ∈ d.observations,
    d.subjectCells[o.subject]? = some (flatIndex (o.levelsAt d.betweenFactors) d.betweenShape)
  /-- The score at the levels of an observation within subjects is its value. -/
  score : ∀ o ∈ d.observations,
    d.scores.get (o.subject :: o.levelsAt d.withinFactors) = o.value
  /-- Every position of the table of scores is that of one observation. -/
  places : (d.observations.map fun o => o.subject :: o.levelsAt d.withinFactors).Perm
    (multiIndices d.scores.shape)
  /-- Every entry of the table of scores is the value of one observation. -/
  values : (d.observations.map (·.value)).Perm d.scores.toList
  /-- A subject stands in every cell between subjects, and in no other. -/
  cells : ∀ cell, cell ∈ d.subjectCells ↔ cell < d.betweenCellCount

/-- The design of a table records the rows of the table with their replicates averaged. -/
theorem records_ofTable (t : ObservationTable K) (ht : t.Built) (settings : Settings) (d : Design K)
    (h : ofTable t settings = .ok d) : d.factorCount = t.factorCount ∧
      (∀ s, s ∈ d.subjects ↔ ∃ r ∈ t.rows, r.subject = s) ∧
      (∀ f < t.factorCount, ∀ l, l ∈ (d.factor f).levels ↔
        ∃ r ∈ t.rows, r.levels[f]? = some l) ∧
      ∃ rows, t.deduplicate settings.duplicates = .ok rows ∧ d.Records rows := by
  have hd := accepted_of_ofTable ht h
  have hcount := factorCount_ofTable ht h
  obtain ⟨hadm, -, -⟩ := (ofTable_eq_ok_iff t settings d).mp h
  refine ⟨hcount, fun s => mem_subjects_ofTable ht h, fun f hf l => mem_levels_ofTable ht h hf,
    t.averages, (t.deduplicate_eq_ok_iff _ _).mpr ⟨rfl, hadm.nodup_of_reject⟩, ?_⟩
  constructor
  · rw [subjects_ofTable ht h]
    exact pairwise_ascending _
  · intro s
    rw [subjects_ofTable ht h, SplitPlot.mem_subjects]
  · intro f hf
    rw [levels_ofTable ht h (hcount ▸ hf)]
    exact pairwise_ascending _
  · intro f hf l
    rw [levels_ofTable ht h (hcount ▸ hf)]
    exact mem_columnLevels
  · exact hd.coherent.length_levels
  · exact map_decode?_ofTable ht h
  · exact fun o => hd.getElem?_subjectCells_observation
  · exact fun o => hd.get_scores_observation
  · exact hd.perm_places
  · exact hd.perm_values
  · exact fun cell => hd.mem_subjectCells_iff

/-- Two groups of one subject.  The rows are in no order, and one measurement was made twice. -/
noncomputable def shuffledGroups : ObservationTable ℝ :=
  wholeTable 2 [(2, [1, 0], 7), (1, [0, 1], 4), (2, [1, 1], 5), (1, [0, 0], 1), (1, [0, 0], 3)]

theorem records_shuffledGroups : shuffledGroups.Built ∧ ∃ d, ofTable shuffledGroups {} = .ok d ∧
    d.subjects = [.int 1, .int 2] ∧ d.subjectCells = [0, 1] ∧
      ∃ rows, shuffledGroups.deduplicate .average = .ok rows ∧ rows.length = 4 ∧
        d.Records rows := by
  have ht : shuffledGroups.Built := built_wholeTable (by decide) (by decide)
  have h : ofTable shuffledGroups {} = .ok (tableCoding shuffledGroups {}).toDesign := rfl
  obtain ⟨-, -, -, rows, hrows, hrecords⟩ := records_ofTable shuffledGroups ht {} _ h
  have hlength : rows.length = shuffledGroups.averages.length := by
    rw [((shuffledGroups.deduplicate_eq_ok_iff _ _).mp hrows).1]
  exact ⟨ht, _, h, by decide, by decide, rows, hrows, hlength.trans (by decide), hrecords⟩

end Design

end SplitPlot
