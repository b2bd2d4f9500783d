import Mathlib
import SplitPlot.Proofs.Decomposition.Positions
import SplitPlot.Proofs.Design.Accepted

/-!
# The observations of a design

An accepted design has one observation for each subject in each cell of the factors within subjects
(`Accepted.perm_places`).  So the score there is the value of that observation
(`Accepted.get_scores_observation`), its subject stands in the cell of its levels between subjects
(`Accepted.getD_subjectCells_observation`), and a sum over the observations is a sum over the
subjects and the cells (`Accepted.sum_observations`).

With that, sums over a design become sums over the rows of its table
(`sum_averages`).
-/

namespace SplitPlot

variable {K : Type} [Scalar K]

namespace Design

open Finset

namespace Accepted

variable {d : Design K} (hd : d.Accepted)

include hd

theorem placement_observation {o : CodedObservation K} (ho : o ∈ d.observations) :
    d.placement o.subject = o.levelsAt d.betweenFactors :=
  hd.coherent.placed_iff.mpr hd.complete.placed o ho

/-- A subject stands in the cell of its observations. -/
theorem getD_subjectCells_observation {o : CodedObservation K} (ho : o ∈ d.observations) :
    d.subjectCells.getD o.subject 0 = flatIndex (o.levelsAt d.betweenFactors) d.betweenShape := by
  have hlt := hd.coherent.subject_lt o ho
  rw [hd.subjectCells_eq, Coding.cells, List.getD_eq_getElem _ _ (by simpa using hlt),
    List.getElem_map, List.getElem_range, hd.placement_observation ho]

/-- Two observations of one subject in one cell are the same. -/
theorem eq_of_visit {o o' : CodedObservation K} (ho : o ∈ d.observations)
    (ho' : o' ∈ d.observations) (hsubject : o.subject = o'.subject)
    (hlevels : o.levelsAt d.withinFactors = o'.levelsAt d.withinFactors) : o = o' := by
  have hnodup := hd.coherent.nodup_visits (fun _ => hd.placement_observation) o'.subject
  rw [Coding.Coherent.visits] at hnodup
  refine List.inj_on_of_nodup_map hnodup (List.mem_filter.mpr ⟨ho, ?_⟩)
    (List.mem_filter.mpr ⟨ho', ?_⟩) hlevels
  · exact beq_iff_eq.mpr hsubject
  · exact beq_self_eq_true _

/-- The score of a subject in a cell is the value of the observation there. -/
theorem get_scores_observation {o : CodedObservation K} (ho : o ∈ d.observations) :
    d.scores.get (o.subject :: o.levelsAt d.withinFactors) = o.value := by
  have hin : InBounds (o.subject :: o.levelsAt d.withinFactors)
      (d.subjectCount :: d.withinShape) :=
    ⟨hd.coherent.subject_lt o ho, hd.coherent.inBounds_levelsAt_within ho⟩
  rw [hd.scores_eq, Coding.scoreTable, Grid.get_ofFn _ hin]
  show d.toCoding.score _ _ = _
  rw [Coding.score]
  generalize hfind : d.observations.find? _ = found
  cases found with
  | none =>
    have hnone := List.find?_eq_none.mp hfind o ho
    rw [Bool.not_eq_true, Bool.and_eq_false_iff, beq_eq_false_iff_ne, beq_eq_false_iff_ne] at hnone
    exact (hnone.elim (· rfl) (· rfl)).elim
  | some o' =>
    have htest := List.find?_some hfind
    rw [Bool.and_eq_true, beq_iff_eq, beq_iff_eq] at htest
    rw [Option.map_some, Option.getD_some,
      hd.eq_of_visit (List.mem_of_find?_eq_some hfind) ho htest.1 htest.2]

/-- The places of the observations are the positions of the table of scores, each of them once. -/
theorem perm_places : (d.observations.map fun o => o.subject :: o.levelsAt d.withinFactors).Perm
    (multiIndices d.scores.shape) := by
  have hnodup : (d.observations.map fun o => o.subject :: o.levelsAt d.withinFactors).Nodup := by
    refine (List.nodup_map_iff_inj_on (List.Nodup.of_map _ hd.coherent.nodup_keys)).mpr ?_
    intro o ho o' ho' heq
    obtain ⟨hsubject, hlevels⟩ := List.cons_eq_cons.mp heq
    exact hd.eq_of_visit ho ho' hsubject hlevels
  refine (List.perm_ext_iff_of_nodup hnodup (nodup_multiIndices _)).mpr fun index => ?_
  rw [mem_multiIndices, hd.shape_scores, List.mem_map]
  constructor
  · rintro ⟨o, ho, rfl⟩
    exact ⟨hd.coherent.subject_lt o ho, hd.coherent.inBounds_levelsAt_within ho⟩
  · intro hindex
    obtain _ | ⟨i, x⟩ := index
    · exact absurd hindex id
    · obtain ⟨o, ho, rfl, rfl⟩ := hd.complete.observed i hindex.1 x hindex.2
      exact ⟨o, ho, rfl⟩

/-- A sum over the observations is a sum over the subjects and the cells within subjects. -/
theorem sum_observations {M : Type} [AddCommMonoid M] (g : ℕ → List ℕ → M) :
    (d.observations.map fun o => g o.subject (o.levelsAt d.withinFactors)).sum =
      ∑ i ∈ range d.subjectCount, ∑ x ∈ positions d.withinShape, g i x := by
  let value : List ℕ → M := fun index => g (index.headD 0) index.tail
  have hmap : (d.observations.map fun o => g o.subject (o.levelsAt d.withinFactors)) =
      (d.observations.map fun o => o.subject :: o.levelsAt d.withinFactors).map value := by
    rw [List.map_map]
    rfl
  rw [hmap, (hd.perm_places.map value).sum_eq, sum_map_multiIndices, hd.shape_scores,
    sum_positions_cons]
  rfl

/-- The places within subjects of the observations of a subject are the cells, each of them once. -/
theorem visits_perm {i : ℕ} (hi : i < d.subjectCount) :
    (Coding.Coherent.visits d.toCoding i).Perm (multiIndices d.withinShape) := by
  have hnodup := hd.coherent.nodup_visits (fun _ => hd.placement_observation) i
  refine (List.perm_ext_iff_of_nodup hnodup (nodup_multiIndices _)).mpr fun x => ?_
  rw [Coding.Coherent.mem_visits, mem_multiIndices]
  constructor
  · rintro ⟨o, ho, -, rfl⟩
    exact hd.coherent.inBounds_levelsAt_within ho
  · exact hd.complete.observed i hi x

/-- A sum over the observations of a subject is a sum over the cells within subjects. -/
theorem sum_observations_subject {M : Type} [AddCommMonoid M] {i : ℕ} (hi : i < d.subjectCount)
    (g : K → List ℕ → M) : ((d.observations.filter fun o => o.subject == i).map fun o =>
      g o.value (o.levelsAt d.withinFactors)).sum =
        ∑ x ∈ positions d.withinShape, g (d.scores.get (i :: x)) x := by
  have hmap : ((d.observations.filter fun o => o.subject == i).map fun o =>
      g o.value (o.levelsAt d.withinFactors)) = (Coding.Coherent.visits d.toCoding i).map fun x =>
        g (d.scores.get (i :: x)) x := by
    rw [Coding.Coherent.visits, List.map_map]
    refine List.map_congr_left fun o ho => ?_
    obtain ⟨hmem, hsubject⟩ := List.mem_filter.mp ho
    rw [Function.comp_apply, ← beq_iff_eq.mp hsubject, hd.get_scores_observation hmem]
  rw [hmap, ((hd.visits_perm hi).map _).sum_eq, sum_map_multiIndices]

/-- A sum over the cells and values of the observations, as one over the design. -/
theorem sum_observations_values {M : Type} [AddCommMonoid M] (g : ℕ → K → M) :
    (d.observations.map fun o =>
      g (flatIndex (o.levelsAt d.betweenFactors) d.betweenShape) o.value).sum =
        ∑ i ∈ range d.subjectCount, ∑ x ∈ positions d.withinShape,
          g (d.subjectCells.getD i 0) (d.scores.get (i :: x)) := by
  rw [← hd.sum_observations]
  refine congrArg List.sum (List.map_congr_left fun o ho => ?_)
  rw [hd.getD_subjectCells_observation ho, hd.get_scores_observation ho]

end Accepted

/-! ## The rows of the table -/

variable {t : ObservationTable K} {settings : Settings} {d : Design K}

/-- The design of a table is that of its coding. -/
theorem eq_of_ofTable (ht : t.Built) (h : ofTable t settings = .ok d) :
    d = (tableCoding t settings).toDesign := by
  obtain ⟨hadm, -, hcomplete⟩ := (ofTable_eq_ok_iff t settings d).mp h
  exact (((coherent_tableCoding ht hadm).complete_eq_ok_iff d).mp hcomplete).2

theorem factorCount_ofTable (ht : t.Built) (h : ofTable t settings = .ok d) :
    d.factorCount = t.factorCount := by
  obtain ⟨hadm, -, -⟩ := (ofTable_eq_ok_iff t settings d).mp h
  rw [eq_of_ofTable ht h]
  exact factorCount_tableCoding hadm

theorem observations_ofTable (ht : t.Built) (h : ofTable t settings = .ok d) : d.observations =
    t.averages.map (code t.averages (settings.resolveNames t.factorCount)) := by
  rw [eq_of_ofTable ht h]
  rfl

/-- A sum over the values of the averaged rows is a sum over the scores. -/
theorem sum_averages (ht : t.Built) (h : ofTable t settings = .ok d) {M : Type} [AddCommMonoid M]
    (g : K → M) : (t.averages.map fun r => g r.value).sum =
      ∑ i ∈ range d.subjectCount, ∑ x ∈ positions d.withinShape, g (d.scores.get (i :: x)) := by
  have hsum := (accepted_of_ofTable ht h).sum_observations_values fun _ => g
  rw [← hsum, observations_ofTable ht h, List.map_map]
  rfl

end Design

end SplitPlot
