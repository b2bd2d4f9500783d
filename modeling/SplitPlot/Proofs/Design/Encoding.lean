import Mathlib
import SplitPlot.Proofs.Design.Completion
import SplitPlot.Proofs.Design.Layout
import SplitPlot.Proofs.Success

/-!
# Rows and their codes

A row is coded by replacing its subject and its levels by their places in ascending lists.  Nothing
is lost: two rows agree in a subject or a level exactly when their codes do, and the code of a level
is below the number of levels because the list it is looked up in was collected from the rows.

* `rowCoding`: the coding of a list of rows under given names, and `coherent_rowCoding`;
* `subject_encode_inj`, `getD_levels_encode_inj`, `getD_levels_encode_eq_iff`: the codes of rows,
  against the rows;
* `isComplete_rowCoding_iff`: completeness of the coding is crossedness of the rows.
-/

namespace SplitPlot

variable {K : Type}

/-! ## Factors read off rows -/

/-- The factors of rows with the given names. -/
def columnFactors (rows : List (Observation K)) (names : List String) : List Factor :=
  names.zipIdx.map fun named =>
    ⟨named.1, columnLevels rows named.2, variesWithin rows (allLevels rows names.length) named.2⟩

/-- The coding of rows with the given names. -/
def rowCoding (rows : List (Observation K)) (names : List String) : Coding K :=
  ⟨columnFactors rows names, ascending (rows.map (·.subject)),
    rows.map (encode (columnFactors rows names) (ascending (rows.map (·.subject))))⟩

/-- The factors can be classified exactly when none that varies has more than ten levels. -/
theorem classifyFactors_eq_ok_iff (rows : List (Observation K)) (names : List String)
    (factors : List Factor) :
    classifyFactors rows names = .ok factors ↔
      (∀ f < names.length, variesWithin rows (allLevels rows names.length) f = true →
        (columnLevels rows f).length ≤ 10) ∧ factors = columnFactors rows names := by
  have hlevels : ∀ f < names.length,
      (allLevels rows names.length).getD f [] = columnLevels rows f := fun f hf => by
    rw [List.getD_eq_getElem?_getD, List.getElem?_map, List.getElem?_range hf]
    rfl
  have hlt : ∀ named ∈ names.zipIdx, named.2 < names.length := fun named hnamed =>
    (List.getElem?_eq_some_iff.mp (List.mem_zipIdx_iff_getElem?.mp hnamed)).1
  rw [classifyFactors, mapM_eq_ok_iff (P := fun named : String × ℕ =>
    variesWithin rows (allLevels rows names.length) named.2 = true →
      (columnLevels rows named.2).length ≤ 10)
    (g := fun named => ⟨named.1, columnLevels rows named.2,
      variesWithin rows (allLevels rows names.length) named.2⟩)]
  · refine and_congr ⟨fun h f hf => ?_, fun h named hnamed => h named.2 (hlt named hnamed)⟩ Iff.rfl
    exact h (names[f], f) (List.mem_zipIdx_iff_getElem?.mpr (List.getElem?_eq_getElem hf))
  · intro named hnamed factor
    rw [classifyFactor, hlevels named.2 (hlt named hnamed)]
    split
    · next h =>
      refine iff_of_false (fun h' => by cases h') fun h' => ?_
      exact absurd (h'.1 h.1) (not_le.mpr h.2)
    · next h =>
      rw [not_and, not_lt] at h
      exact ⟨fun h' => ⟨h, (Except.ok.inj h').symm⟩, fun h' => congrArg _ h'.2.symm⟩

section Codes

variable {rows : List (Observation K)} {names : List String}

theorem getElem?_columnFactors {f : ℕ} (hf : f < names.length) :
    (columnFactors rows names)[f]? = some ⟨names[f], columnLevels rows f,
      variesWithin rows (allLevels rows names.length) f⟩ := by
  rw [columnFactors, List.getElem?_map, List.getElem?_zipIdx, List.getElem?_eq_getElem hf]
  simp

@[simp] theorem factorCount_rowCoding : (rowCoding rows names).factorCount = names.length := by
  simp [rowCoding, Coding.factorCount, columnFactors]

theorem factor_rowCoding {f : ℕ} (hf : f < names.length) :
    (rowCoding rows names).factor f = ⟨names[f], columnLevels rows f,
      variesWithin rows (allLevels rows names.length) f⟩ := by
  rw [Coding.factor, rowCoding, List.getD_eq_getElem?_getD, getElem?_columnFactors hf]
  rfl

theorem levelCount_rowCoding {f : ℕ} (hf : f < names.length) :
    (rowCoding rows names).levelCount f = (columnLevels rows f).length := by
  rw [Coding.levelCount, factor_rowCoding hf]
  rfl

/-- The code of a row. -/
def code (rows : List (Observation K)) (names : List String) (r : Observation K) :
    CodedObservation K :=
  encode (columnFactors rows names) (ascending (rows.map (·.subject))) r

theorem mem_observations_rowCoding {o : CodedObservation K} :
    o ∈ (rowCoding rows names).observations ↔ ∃ r ∈ rows, code rows names r = o := List.mem_map

/-! ## Subjects -/

theorem mem_subjects {s : Level} :
    s ∈ ascending (rows.map (·.subject)) ↔ ∃ r ∈ rows, r.subject = s := by
  rw [mem_ascending, List.mem_map]

theorem subject_code_lt {r : Observation K} (hr : r ∈ rows) :
    (code rows names r).subject < (rowCoding rows names).subjectCount :=
  List.idxOf_lt_length_of_mem (mem_subjects.mpr ⟨r, hr, rfl⟩)

theorem subject_code_inj {r r' : Observation K} (hr : r ∈ rows) :
    (code rows names r).subject = (code rows names r').subject ↔ r.subject = r'.subject :=
  List.idxOf_inj (mem_subjects.mpr ⟨r, hr, rfl⟩)

theorem exists_subject_code {s : ℕ} (hs : s < (rowCoding rows names).subjectCount) :
    ∃ r ∈ rows, (code rows names r).subject = s := by
  obtain ⟨r, hr, hsubject⟩ := mem_subjects.mp (List.getElem_mem hs)
  refine ⟨r, hr, ?_⟩
  show (ascending (rows.map (·.subject))).idxOf r.subject = s
  rw [hsubject]
  exact (nodup_ascending _).idxOf_getElem s hs

/-! ## Levels -/

theorem getD_levels_code {r : Observation K} {f : ℕ} {l : Level} (hl : r.levels[f]? = some l)
    (hf : f < names.length) :
    (code rows names r).levels.getD f 0 = (columnLevels rows f).idxOf l := by
  have hzip : (r.levels.zip (columnFactors rows names))[f]? =
      some (l, ⟨names[f], columnLevels rows f,
        variesWithin rows (allLevels rows names.length) f⟩) :=
    List.getElem?_zip_eq_some.mpr ⟨hl, getElem?_columnFactors hf⟩
  rw [code, encode, List.getD_eq_getElem?_getD, List.getElem?_map, hzip]
  rfl

/-- The code of a row at a factor is the place of its level there. -/
theorem getD_levels_code_eq_iff {r : Observation K} {f : ℕ} {l : Level}
    (hlen : r.levels.length = names.length) (hf : f < names.length) (hl : Occurs rows f l) :
    (code rows names r).levels.getD f 0 = (columnLevels rows f).idxOf l ↔
      r.levels[f]? = some l := by
  have hget := List.getElem?_eq_getElem (l := r.levels) (i := f) (hlen ▸ hf)
  rw [getD_levels_code hget hf, eq_comm, List.idxOf_inj (mem_columnLevels.mpr hl), hget,
    Option.some_inj, eq_comm]

theorem getD_levels_code_lt {r : Observation K} (hr : r ∈ rows) {f : ℕ}
    (hlen : r.levels.length = names.length) (hf : f < names.length) :
    (code rows names r).levels.getD f 0 < (columnLevels rows f).length := by
  have hget := List.getElem?_eq_getElem (l := r.levels) (i := f) (hlen ▸ hf)
  rw [getD_levels_code hget hf]
  exact List.idxOf_lt_length_of_mem (mem_columnLevels.mpr ⟨r, hr, hget⟩)

theorem getD_levels_code_inj {r r' : Observation K} (hr' : r' ∈ rows) {f : ℕ}
    (hlen : r.levels.length = names.length) (hlen' : r'.levels.length = names.length)
    (hf : f < names.length) :
    (code rows names r).levels.getD f 0 = (code rows names r').levels.getD f 0 ↔
      r.levels[f]? = r'.levels[f]? := by
  have hget := List.getElem?_eq_getElem (l := r'.levels) (i := f) (hlen' ▸ hf)
  rw [getD_levels_code hget hf, getD_levels_code_eq_iff hlen hf ⟨r', hr', hget⟩, hget]

/-! ## The coding is coherent -/

theorem coherent_rowCoding (hlen : ∀ r ∈ rows, r.levels.length = names.length)
    (hkeys : (rows.map Observation.key).Nodup) : (rowCoding rows names).Coherent where
  subject_lt o ho := by
    obtain ⟨r, hr, rfl⟩ := mem_observations_rowCoding.mp ho
    exact subject_code_lt hr
  length_levels o ho := by
    obtain ⟨r, hr, rfl⟩ := mem_observations_rowCoding.mp ho
    simp [code, encode, columnFactors, hlen r hr]
  level_lt o ho f hf := by
    obtain ⟨r, hr, rfl⟩ := mem_observations_rowCoding.mp ho
    rw [factorCount_rowCoding] at hf
    rw [levelCount_rowCoding hf]
    exact getD_levels_code_lt hr (hlen r hr) hf
  exists_subject s hs := by
    obtain ⟨r, hr, hsubject⟩ := exists_subject_code hs
    exact ⟨_, mem_observations_rowCoding.mpr ⟨r, hr, rfl⟩, hsubject⟩
  nodup_keys := by
    have hinj : ∀ r ∈ rows, ∀ r' ∈ rows,
        ((code rows names r).subject, (code rows names r).levels) =
          ((code rows names r').subject, (code rows names r').levels) → r = r' := by
      intro r hr r' hr' heq
      obtain ⟨hsubject, hlevels⟩ := Prod.mk.inj heq
      refine List.inj_on_of_nodup_map hkeys hr hr' ?_
      have hrl : r.levels = r'.levels := by
        refine List.ext_getElem? fun f => ?_
        rcases lt_or_ge f names.length with hf | hf
        · exact (getD_levels_code_inj hr' (hlen r hr) (hlen r' hr') hf).mp (by rw [hlevels])
        · rw [List.getElem?_eq_none (hlen r hr ▸ hf), List.getElem?_eq_none (hlen r' hr' ▸ hf)]
      rw [Observation.key, Observation.key, (subject_code_inj hr).mp hsubject, hrl]
    rw [rowCoding, List.map_map]
    exact (List.nodup_map_iff_inj_on (List.Nodup.of_map _ hkeys)).mpr hinj

/-! ## Complete codings are the codings of crossed rows -/

/-- The level with a given code. -/
def levelOf (rows : List (Observation K)) (f i : ℕ) : Level := (columnLevels rows f).getD i default

theorem levelOf_eq {f i : ℕ} (hi : i < (columnLevels rows f).length) :
    levelOf rows f i = (columnLevels rows f)[i] := List.getD_eq_getElem _ _ hi

theorem occurs_levelOf {f i : ℕ} (hi : i < (columnLevels rows f).length) :
    Occurs rows f (levelOf rows f i) := by
  rw [levelOf_eq hi]
  exact mem_columnLevels.mp (List.getElem_mem hi)

theorem idxOf_levelOf {f i : ℕ} (hi : i < (columnLevels rows f).length) :
    (columnLevels rows f).idxOf (levelOf rows f i) = i := by
  rw [levelOf_eq hi]
  exact (nodup_columnLevels f).idxOf_getElem i hi

/-- Rows have a given combination of levels exactly when their codes have its codes. -/
theorem levelsAt_code_eq_iff {r : Observation K} {factors : List ℕ} {g : ℕ → Level}
    (hlen : r.levels.length = names.length) (hfactors : ∀ f ∈ factors, f < names.length)
    (hg : ∀ f ∈ factors, Occurs rows f (g f)) :
    (code rows names r).levelsAt factors =
        factors.map (fun f => (columnLevels rows f).idxOf (g f)) ↔
      ∀ f ∈ factors, r.levels[f]? = some (g f) := by
  rw [CodedObservation.levelsAt, List.map_inj_left]
  exact forall₂_congr fun f hf => getD_levels_code_eq_iff hlen (hfactors f hf) (hg f hf)

/-- A position along a list of factors is the list of codes of observed levels. -/
theorem exists_levels_of_inBounds {factors index : List ℕ} (hnodup : factors.Nodup)
    (hfactors : ∀ f ∈ factors, f < names.length)
    (hindex : InBounds index (factors.map (rowCoding rows names).levelCount)) :
    ∃ g : ℕ → Level, (∀ f ∈ factors, Occurs rows f (g f)) ∧
      index = factors.map fun f => (columnLevels rows f).idxOf (g f) := by
  have hlen : index.length = factors.length := by rw [hindex.length_eq, List.length_map]
  -- the code that the position gives to a factor
  have hmap : index = factors.map fun f => index.getD (factors.idxOf f) 0 := by
    refine List.ext_getElem (by rw [hlen, List.length_map]) fun i hi hi' => ?_
    rw [List.getElem_map, hnodup.idxOf_getElem i (hlen ▸ hi), List.getD_eq_getElem _ _ hi]
  have hlt : ∀ f ∈ factors,
      index.getD (factors.idxOf f) 0 < (columnLevels rows f).length := fun f hf => by
    rw [hmap] at hindex
    rw [← levelCount_rowCoding (hfactors f hf)]
    exact inBounds_map.mp hindex f hf
  refine ⟨fun f => levelOf rows f (index.getD (factors.idxOf f) 0),
    fun f hf => occurs_levelOf (hlt f hf), hmap.trans (List.map_congr_left fun f hf => ?_)⟩
  exact (idxOf_levelOf (hlt f hf)).symm

theorem inBounds_levels {factors : List ℕ} {g : ℕ → Level}
    (hfactors : ∀ f ∈ factors, f < names.length) (hg : ∀ f ∈ factors, Occurs rows f (g f)) :
    InBounds (factors.map fun f => (columnLevels rows f).idxOf (g f))
      (factors.map (rowCoding rows names).levelCount) :=
  inBounds_map.mpr fun f hf => by
    rw [levelCount_rowCoding (hfactors f hf)]
    exact List.idxOf_lt_length_of_mem (mem_columnLevels.mpr (hg f hf))

theorem lt_of_mem_betweenFactors :
    ∀ f ∈ (rowCoding rows names).betweenFactors, f < names.length := by
  intro f hf
  rw [Coding.mem_betweenFactors, factorCount_rowCoding] at hf
  exact hf.1

theorem lt_of_mem_withinFactors :
    ∀ f ∈ (rowCoding rows names).withinFactors, f < names.length := by
  intro f hf
  rw [Coding.mem_withinFactors, factorCount_rowCoding] at hf
  exact hf.1

theorem nodup_betweenFactors (c : Coding K) : c.betweenFactors.Nodup := List.nodup_range.filter _

theorem nodup_withinFactors (c : Coding K) : c.withinFactors.Nodup := List.nodup_range.filter _

/-- The coding of rows is complete exactly when the rows are crossed by the factors that the
coding takes for those between and those within subjects. -/
theorem isComplete_rowCoding_iff (hlen : ∀ r ∈ rows, r.levels.length = names.length)
    (hsmall : ∀ f ∈ (rowCoding rows names).withinFactors, (columnLevels rows f).length ≤ 10) :
    (rowCoding rows names).IsComplete ↔
      Crossed rows (rowCoding rows names).betweenFactors.toFinset
        (rowCoding rows names).withinFactors.toFinset := by
  constructor
  · intro h
    refine ⟨fun f hf hv => ?_, fun g hg => ?_, fun r hr g hg => ?_, fun f hf => ?_⟩
    · obtain ⟨r, hr, r', hr', hsubject, hne⟩ := hv
      have hf' := List.mem_toFinset.mp hf
      have heq := h.placed _ (mem_observations_rowCoding.mpr ⟨r, hr, rfl⟩) _
        (mem_observations_rowCoding.mpr ⟨r', hr', rfl⟩) ((subject_code_inj hr).mpr hsubject)
      exact hne ((getD_levels_code_inj hr' (hlen r hr) (hlen r' hr')
        (lt_of_mem_betweenFactors f hf')).mp (CodedObservation.levelsAt_eq_iff.mp heq f hf'))
    · have hg' := fun f hf => hg f (List.mem_toFinset.mpr hf)
      obtain ⟨o, ho, hlevels⟩ := h.populated _ (inBounds_levels lt_of_mem_betweenFactors hg')
      obtain ⟨r, hr, rfl⟩ := mem_observations_rowCoding.mp ho
      have hr' := (levelsAt_code_eq_iff (hlen r hr) lt_of_mem_betweenFactors hg').mp hlevels
      exact ⟨r, hr, fun f hf => hr' f (List.mem_toFinset.mp hf)⟩
    · have hg' := fun f hf => hg f (List.mem_toFinset.mpr hf)
      obtain ⟨o, ho, hsubject, hlevels⟩ := h.observed _ (subject_code_lt hr) _
        (inBounds_levels lt_of_mem_withinFactors hg')
      obtain ⟨r', hr', rfl⟩ := mem_observations_rowCoding.mp ho
      have hlevels' := (levelsAt_code_eq_iff (hlen r' hr') lt_of_mem_withinFactors hg').mp hlevels
      exact ⟨r', hr', (subject_code_inj hr').mp hsubject,
        fun f hf => hlevels' f (List.mem_toFinset.mp hf)⟩
    · rw [← length_columnLevels]
      exact hsmall f (List.mem_toFinset.mp hf)
  · intro h
    refine ⟨fun o ho o' ho' hsubject => ?_, fun index hindex => ?_, fun s hs index hindex => ?_⟩
    · obtain ⟨r, hr, rfl⟩ := mem_observations_rowCoding.mp ho
      obtain ⟨r', hr', rfl⟩ := mem_observations_rowCoding.mp ho'
      refine CodedObservation.levelsAt_eq_iff.mpr fun f hf => ?_
      refine (getD_levels_code_inj hr' (hlen r hr) (hlen r' hr')
        (lt_of_mem_betweenFactors f hf)).mpr (not_not.mp fun hne => ?_)
      exact h.constant f (List.mem_toFinset.mpr hf)
        ⟨r, hr, r', hr', (subject_code_inj hr).mp hsubject, hne⟩
    · obtain ⟨g, hg, rfl⟩ := exists_levels_of_inBounds (nodup_betweenFactors _)
        lt_of_mem_betweenFactors hindex
      obtain ⟨r, hr, hlevels⟩ := h.populated g fun f hf => hg f (List.mem_toFinset.mp hf)
      refine ⟨_, mem_observations_rowCoding.mpr ⟨r, hr, rfl⟩, ?_⟩
      exact (levelsAt_code_eq_iff (hlen r hr) lt_of_mem_betweenFactors hg).mpr
        fun f hf => hlevels f (List.mem_toFinset.mpr hf)
    · obtain ⟨g, hg, rfl⟩ := exists_levels_of_inBounds (nodup_withinFactors _)
        lt_of_mem_withinFactors hindex
      obtain ⟨r, hr, rfl⟩ := exists_subject_code hs
      obtain ⟨r', hr', hsubject, hlevels⟩ := h.complete r hr g fun f hf =>
        hg f (List.mem_toFinset.mp hf)
      refine ⟨_, mem_observations_rowCoding.mpr ⟨r', hr', rfl⟩,
        (subject_code_inj hr').mpr hsubject, ?_⟩
      exact (levelsAt_code_eq_iff (hlen r' hr') lt_of_mem_withinFactors hg).mpr
        fun f hf => hlevels f (List.mem_toFinset.mpr hf)

end Codes

end SplitPlot
