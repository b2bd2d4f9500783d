import Mathlib
import SplitPlot.Design.Classification
import SplitPlot.Shape.Lemmas

/-!
# When a coded table is a design

`Coding.complete` checks a coded table in three passes, each of which answers with the first thing
that is wrong: a subject in two cells between subjects, a cell without subjects, a subject with too
few observations.  This file says what it means that all three passes find nothing.

`Coding.Coherent` is what every coding of a table satisfies: codes are in range, each subject
occurs, and no two observations have the same subject and the same levels.  `Coding.IsComplete` is
the property that the passes decide, said without first offenders and without counting.  The main
statement is `Coding.Coherent.complete_eq_ok_iff`.

The last pass only counts the observations of a subject.  Its observations differ pairwise, and in
their levels within subjects already, since the levels between subjects are the same in all of
them; so they are as many as the cells within subjects exactly when each cell has one
(`Coding.Coherent.cellCount_le_observed_iff`).
-/

namespace SplitPlot

/-! ## Positions -/

/-- Numbers of one position are the same number. -/
theorem eq_of_unravel_eq {shape : List ℕ} {a b : ℕ} (ha : a < cellCount shape)
    (hb : b < cellCount shape) (heq : unravel shape a = unravel shape b) : a = b := by
  rw [← flatIndex_unravel ha, ← flatIndex_unravel hb, heq]

theorem nodup_multiIndices (shape : List ℕ) : (multiIndices shape).Nodup := by
  rw [multiIndices_eq]
  exact List.Nodup.map_on (fun _ ha _ hb hab =>
    eq_of_unravel_eq (List.mem_range.mp ha) (List.mem_range.mp hb) hab) List.nodup_range

/-- Levels read off along a list of axes are in bounds when each is below the extent of its
axis. -/
theorem inBounds_map {α : Type} {index shape : α → ℕ} :
    ∀ {axes : List α}, InBounds (axes.map index) (axes.map shape) ↔
      ∀ a ∈ axes, index a < shape a
  | [] => by simp [InBounds]
  | a :: axes => by
    rw [List.map_cons, List.map_cons, InBounds, inBounds_map, List.forall_mem_cons]

/-- Positions with one number are the same position. -/
theorem eq_of_flatIndex_eq {index index' shape : List ℕ} (h : InBounds index shape)
    (h' : InBounds index' shape) (heq : flatIndex index shape = flatIndex index' shape) :
    index = index' := by
  rw [← unravel_flatIndex h, ← unravel_flatIndex h', heq]

/-! ## Codings -/

variable {K : Type}

namespace CodedObservation

/-- The levels of an observation at listed factors agree with those of another exactly when the two
agree at each of the factors. -/
theorem levelsAt_eq_iff {o o' : CodedObservation K} {factors : List ℕ} :
    o.levelsAt factors = o'.levelsAt factors ↔
      ∀ f ∈ factors, o.levels.getD f 0 = o'.levels.getD f 0 := by
  rw [levelsAt, levelsAt, List.map_inj_left]

end CodedObservation

namespace Coding

/-- What holds of the codes of every table: they are in range, each subject has an observation, and
no two observations have the same subject and the same levels. -/
structure Coherent (c : Coding K) : Prop where
  subject_lt : ∀ o ∈ c.observations, o.subject < c.subjectCount
  length_levels : ∀ o ∈ c.observations, o.levels.length = c.factorCount
  level_lt : ∀ o ∈ c.observations, ∀ f < c.factorCount, o.levels.getD f 0 < c.levelCount f
  exists_subject : ∀ s < c.subjectCount, ∃ o ∈ c.observations, o.subject = s
  nodup_keys : (c.observations.map fun o => (o.subject, o.levels)).Nodup

/-- A subject stands in one cell between subjects, each such cell has a subject, and each subject
is observed in every cell within subjects. -/
structure IsComplete (c : Coding K) : Prop where
  placed : ∀ o ∈ c.observations, ∀ o' ∈ c.observations, o.subject = o'.subject →
    o.levelsAt c.betweenFactors = o'.levelsAt c.betweenFactors
  populated : ∀ index, InBounds index c.betweenShape →
    ∃ o ∈ c.observations, o.levelsAt c.betweenFactors = index
  observed : ∀ s < c.subjectCount, ∀ index, InBounds index c.withinShape →
    ∃ o ∈ c.observations, o.subject = s ∧ o.levelsAt c.withinFactors = index

theorem mem_betweenFactors {c : Coding K} {f : ℕ} :
    f ∈ c.betweenFactors ↔ f < c.factorCount ∧ (c.factor f).within = false := by
  simp [betweenFactors]

theorem mem_withinFactors {c : Coding K} {f : ℕ} :
    f ∈ c.withinFactors ↔ f < c.factorCount ∧ (c.factor f).within = true := by
  simp [withinFactors]

/-- A factor varies between subjects or within. -/
theorem mem_betweenFactors_or_mem_withinFactors {c : Coding K} {f : ℕ} (hf : f < c.factorCount) :
    f ∈ c.betweenFactors ∨ f ∈ c.withinFactors := by
  rw [mem_betweenFactors, mem_withinFactors]
  cases (c.factor f).within
  · exact Or.inl ⟨hf, rfl⟩
  · exact Or.inr ⟨hf, rfl⟩

theorem union_factors (c : Coding K) :
    c.betweenFactors.toFinset ∪ c.withinFactors.toFinset = Finset.range c.factorCount := by
  ext f
  rw [Finset.mem_union, List.mem_toFinset, List.mem_toFinset, Finset.mem_range]
  refine ⟨fun h => ?_, mem_betweenFactors_or_mem_withinFactors⟩
  rcases h with h | h
  · exact (mem_betweenFactors.mp h).1
  · exact (mem_withinFactors.mp h).1

theorem betweenFactors_subset (c : Coding K) :
    c.betweenFactors.toFinset ⊆ Finset.range c.factorCount := by
  rw [← c.union_factors]
  exact Finset.subset_union_left

theorem withinFactors_subset (c : Coding K) :
    c.withinFactors.toFinset ⊆ Finset.range c.factorCount := by
  rw [← c.union_factors]
  exact Finset.subset_union_right

/-- No factor varies between subjects and within. -/
theorem disjoint_factors (c : Coding K) :
    Disjoint c.betweenFactors.toFinset c.withinFactors.toFinset := by
  refine Finset.disjoint_left.mpr fun f hfb hfw => ?_
  have hb := (mem_betweenFactors.mp (List.mem_toFinset.mp hfb)).2
  have hw := (mem_withinFactors.mp (List.mem_toFinset.mp hfw)).2
  rw [hb] at hw
  exact absurd hw Bool.false_ne_true

/-- The design of a complete coding. -/
def toDesign [Scalar K] (c : Coding K) : Design K :=
  { c with subjectCells := c.cells, scores := c.scoreTable }

namespace Coherent

variable {c : Coding K}

theorem inBounds_levelsAt_between (hc : c.Coherent) {o : CodedObservation K}
    (ho : o ∈ c.observations) : InBounds (o.levelsAt c.betweenFactors) c.betweenShape :=
  inBounds_map.mpr fun f hf => hc.level_lt o ho f (mem_betweenFactors.mp hf).1

theorem inBounds_levelsAt_within (hc : c.Coherent) {o : CodedObservation K}
    (ho : o ∈ c.observations) : InBounds (o.levelsAt c.withinFactors) c.withinShape :=
  inBounds_map.mpr fun f hf => hc.level_lt o ho f (mem_withinFactors.mp hf).1

/-! ## The cell of a subject -/

/-- A subject is placed by one of its observations. -/
theorem exists_placement (hc : c.Coherent) {s : ℕ} (hs : s < c.subjectCount) :
    ∃ o ∈ c.observations, o.subject = s ∧ c.placement s = o.levelsAt c.betweenFactors := by
  obtain ⟨o, ho, hos⟩ := hc.exists_subject s hs
  rcases hfind : c.observations.find? fun o => o.subject == s with _ | o'
  · exact absurd (beq_iff_eq.mpr hos) (List.find?_eq_none.mp hfind o ho)
  · refine ⟨o', List.mem_of_find?_eq_some hfind, ?_, ?_⟩
    · have htest := List.find?_some hfind
      exact beq_iff_eq.mp htest
    · rw [placement, hfind, Option.map_some, Option.getD_some]

theorem inBounds_placement (hc : c.Coherent) {s : ℕ} (hs : s < c.subjectCount) :
    InBounds (c.placement s) c.betweenShape := by
  obtain ⟨o, ho, -, hplace⟩ := hc.exists_placement hs
  rw [hplace]
  exact hc.inBounds_levelsAt_between ho

/-- No subject straddles two cells exactly when each observation stands where its subject is
placed. -/
theorem straddling?_eq_none_iff (hc : c.Coherent) :
    c.straddling? = none ↔
      ∀ o ∈ c.observations, c.placement o.subject = o.levelsAt c.betweenFactors := by
  rw [straddling?, List.findSome?_eq_none_iff]
  refine forall₂_congr fun o ho => ?_
  have hlen : (c.placement o.subject).length = (o.levelsAt c.betweenFactors).length := by
    rw [(hc.inBounds_placement (hc.subject_lt o ho)).length_eq,
      (hc.inBounds_levelsAt_between ho).length_eq]
  rw [Option.map_eq_none_iff, List.findIdx?_eq_none_iff]
  constructor
  · intro h
    refine List.ext_getElem hlen fun i hi hi' => ?_
    have hmem : ((c.placement o.subject)[i], (o.levelsAt c.betweenFactors)[i]) ∈
        (c.placement o.subject).zip (o.levelsAt c.betweenFactors) :=
      List.mem_of_getElem (i := i) (h := by simp [hlen, hi']) (by simp)
    simpa using h _ hmem
  · intro heq e he
    rw [heq] at he
    obtain ⟨i, hi, rfl⟩ := List.mem_iff_getElem.mp he
    simp

theorem placed_iff (hc : c.Coherent) :
    (∀ o ∈ c.observations, c.placement o.subject = o.levelsAt c.betweenFactors) ↔
      ∀ o ∈ c.observations, ∀ o' ∈ c.observations, o.subject = o'.subject →
        o.levelsAt c.betweenFactors = o'.levelsAt c.betweenFactors := by
  constructor
  · intro h o ho o' ho' hsubject
    rw [← h o ho, ← h o' ho', hsubject]
  · intro h o ho
    obtain ⟨o', ho', hsubject, hplace⟩ := hc.exists_placement (hc.subject_lt o ho)
    rw [hplace, h o' ho' o ho hsubject]

/-! ## Cells without subjects -/

theorem mem_cells (c : Coding K) {cell : ℕ} :
    cell ∈ c.cells ↔ ∃ s < c.subjectCount, flatIndex (c.placement s) c.betweenShape = cell := by
  simp [cells]

/-- A cell has a subject exactly when some observation stands in it. -/
theorem flatIndex_mem_cells_iff (hc : c.Coherent)
    (hplaced : ∀ o ∈ c.observations, c.placement o.subject = o.levelsAt c.betweenFactors)
    {index : List ℕ} (hindex : InBounds index c.betweenShape) :
    flatIndex index c.betweenShape ∈ c.cells ↔
      ∃ o ∈ c.observations, o.levelsAt c.betweenFactors = index := by
  rw [mem_cells]
  constructor
  · rintro ⟨s, hs, hflat⟩
    obtain ⟨o, ho, -, hplace⟩ := hc.exists_placement hs
    exact ⟨o, ho, hplace ▸ eq_of_flatIndex_eq (hc.inBounds_placement hs) hindex hflat⟩
  · rintro ⟨o, ho, rfl⟩
    exact ⟨o.subject, hc.subject_lt o ho, by rw [hplaced o ho]⟩

/-- No cell is deserted exactly when some observation stands in each. -/
theorem deserted?_eq_none_iff (hc : c.Coherent)
    (hplaced : ∀ o ∈ c.observations, c.placement o.subject = o.levelsAt c.betweenFactors) :
    c.deserted? = none ↔ ∀ index, InBounds index c.betweenShape →
      ∃ o ∈ c.observations, o.levelsAt c.betweenFactors = index := by
  rw [deserted?, findIndex?_eq, List.find?_eq_none]
  simp only [mem_multiIndices, Bool.not_eq_true', Bool.not_eq_false, List.contains_iff_mem]
  exact forall₂_congr fun index hindex => hc.flatIndex_mem_cells_iff hplaced hindex

/-! ## Subjects with too few observations -/

/-- The levels within subjects of the observations of a subject. -/
def visits (c : Coding K) (s : ℕ) : List (List ℕ) :=
  (c.observations.filter fun o => o.subject == s).map fun o => o.levelsAt c.withinFactors

theorem mem_visits {s : ℕ} {index : List ℕ} :
    index ∈ visits c s ↔
      ∃ o ∈ c.observations, o.subject = s ∧ o.levelsAt c.withinFactors = index := by
  simp [visits, and_assoc]

theorem length_visits (s : ℕ) : (visits c s).length = c.observed s := by
  rw [visits, List.length_map, observed, List.countP_eq_length_filter]

/-- A subject is not observed twice in one cell within subjects. -/
theorem nodup_visits (hc : c.Coherent)
    (hplaced : ∀ o ∈ c.observations, c.placement o.subject = o.levelsAt c.betweenFactors)
    (s : ℕ) : (visits c s).Nodup := by
  have hnodup : (c.observations.filter fun o => o.subject == s).Nodup :=
    (List.Nodup.of_map _ hc.nodup_keys).filter _
  refine (List.nodup_map_iff_inj_on hnodup).mpr fun o ho o' ho' hwithin => ?_
  obtain ⟨hmem, hs⟩ := List.mem_filter.mp ho
  obtain ⟨hmem', hs'⟩ := List.mem_filter.mp ho'
  have hsubject : o.subject = o'.subject := by rw [beq_iff_eq.mp hs, beq_iff_eq.mp hs']
  have hbetween : o.levelsAt c.betweenFactors = o'.levelsAt c.betweenFactors := by
    rw [← hplaced o hmem, ← hplaced o' hmem', hsubject]
  -- every factor is of one of the two kinds, so the observations have one key
  refine List.inj_on_of_nodup_map hc.nodup_keys hmem hmem' (Prod.ext hsubject ?_)
  have hlen : o.levels.length = o'.levels.length := by
    rw [hc.length_levels o hmem, hc.length_levels o' hmem']
  refine List.ext_getElem hlen fun f hf hf' => ?_
  rw [← List.getD_eq_getElem o.levels 0 hf, ← List.getD_eq_getElem o'.levels 0 hf']
  rcases mem_betweenFactors_or_mem_withinFactors (hc.length_levels o hmem ▸ hf) with h | h
  · exact CodedObservation.levelsAt_eq_iff.mp hbetween f h
  · exact CodedObservation.levelsAt_eq_iff.mp hwithin f h

/-- A subject has as many observations as there are cells within subjects exactly when it is
observed in each of them. -/
theorem cellCount_le_observed_iff (hc : c.Coherent)
    (hplaced : ∀ o ∈ c.observations, c.placement o.subject = o.levelsAt c.betweenFactors)
    (s : ℕ) : c.withinCellCount ≤ c.observed s ↔
      ∀ index, InBounds index c.withinShape → index ∈ visits c s := by
  have hsub : visits c s ⊆ multiIndices c.withinShape := by
    intro index hindex
    obtain ⟨o, ho, -, rfl⟩ := mem_visits.mp hindex
    exact mem_multiIndices.mpr (hc.inBounds_levelsAt_within ho)
  rw [← length_visits, withinCellCount, ← length_multiIndices]
  constructor
  · intro hle index hindex
    have hperm := ((hc.nodup_visits hplaced s).subperm hsub).perm_of_length_le hle
    exact hperm.mem_iff.mpr (mem_multiIndices.mpr hindex)
  · intro h
    refine List.Subperm.length_le ((nodup_multiIndices _).subperm fun index hindex => ?_)
    exact h index (mem_multiIndices.mp hindex)

theorem incomplete?_eq_none_iff (c : Coding K) :
    c.incomplete? = none ↔ ∀ s < c.subjectCount, c.withinCellCount ≤ c.observed s := by
  simp [incomplete?]

/-! ## All three passes -/

variable [Scalar K]

/-- The three passes find nothing exactly on the complete codings. -/
theorem complete_eq_ok_iff (hc : c.Coherent) (d : Design K) :
    c.complete = .ok d ↔ c.IsComplete ∧ d = c.toDesign := by
  have hok : c.complete = .ok d ↔
      c.straddling? = none ∧ c.deserted? = none ∧ c.incomplete? = none ∧ d = c.toDesign := by
    unfold complete
    rcases c.straddling? with _ | ⟨s, axis⟩
    · rcases c.deserted? with _ | index
      · rcases c.incomplete? with _ | s
        · simp [toDesign, eq_comm]
        · simp
      · simp
    · simp
  rw [hok, hc.straddling?_eq_none_iff, incomplete?_eq_none_iff]
  constructor
  · rintro ⟨hplaced, hdeserted, hobserved, rfl⟩
    refine ⟨⟨hc.placed_iff.mp hplaced, (hc.deserted?_eq_none_iff hplaced).mp hdeserted,
      fun s hs index hindex => ?_⟩, rfl⟩
    exact mem_visits.mp ((hc.cellCount_le_observed_iff hplaced s).mp (hobserved s hs) index hindex)
  · rintro ⟨h, rfl⟩
    have hplaced := hc.placed_iff.mpr h.placed
    refine ⟨hplaced, (hc.deserted?_eq_none_iff hplaced).mpr h.populated, fun s hs => ?_, rfl⟩
    exact (hc.cellCount_le_observed_iff hplaced s).mpr fun index hindex =>
      mem_visits.mpr (h.observed s hs index hindex)

end Coherent

end Coding

end SplitPlot
