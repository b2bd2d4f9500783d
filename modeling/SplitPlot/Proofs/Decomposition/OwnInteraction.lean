import Mathlib
import SplitPlot.Proofs.Decomposition.SubjectScores
import SplitPlot.Proofs.Relabelling.Scores

/-!
# Contrast scores see their own interaction only

A number may be added to every observation, one that depends on the subject and on the cell within
subjects (`Coding.addValues`).  The design keeps its subjects and its cells, and each of its scores
is raised by the number (`Accepted.score_addScores`).

If the numbers do not depend on the level of one of the factors of a source, or are a sum of numbers
each of which does not depend on the level of some factor of the source, the contrast scores of the
source stay as they are (`contrastScores_addScores`).  What else the numbers depend on does not
matter: a combination of contrasts has zero sums along each of its factors, and it is enough that
one of these is ignored.
-/

namespace SplitPlot

open Finset

/-! ## Numbers added to the observations -/

namespace Coding

/-- The coding with a number added to each observation, for its subject and its cell within
subjects. -/
noncomputable def addValues (c : Coding ℝ) (g : ℕ → List ℕ → ℝ) : Coding ℝ :=
  { c with observations := c.observations.map fun o =>
      { o with value := o.value + g o.subject (o.levelsAt c.withinFactors) } }

variable {c : Coding ℝ} {g : ℕ → List ℕ → ℝ}

/-- The codes stay in place. -/
theorem Coherent.addValues (hc : c.Coherent) : (c.addValues g).Coherent where
  subject_lt := List.forall_mem_map.mpr hc.subject_lt
  length_levels := List.forall_mem_map.mpr hc.length_levels
  level_lt := List.forall_mem_map.mpr hc.level_lt
  exists_subject s hs := by
    obtain ⟨o, ho, hsubject⟩ := hc.exists_subject s hs
    exact ⟨_, List.mem_map_of_mem ho, hsubject⟩
  nodup_keys := by
    rw [Coding.addValues, List.map_map]
    exact hc.nodup_keys

theorem IsComplete.addValues (hc : c.IsComplete) : (c.addValues g).IsComplete where
  placed := List.forall_mem_map.mpr fun o ho => List.forall_mem_map.mpr (hc.placed o ho)
  populated index hindex := by
    obtain ⟨o, ho, hlevels⟩ := hc.populated index hindex
    exact ⟨_, List.mem_map_of_mem ho, hlevels⟩
  observed s hs index hindex := by
    obtain ⟨o, ho, hsubject, hlevels⟩ := hc.observed s hs index hindex
    exact ⟨_, List.mem_map_of_mem ho, hsubject, hlevels⟩

theorem placement_addValues (s : ℕ) : (c.addValues g).placement s = c.placement s := by
  rw [placement, placement, addValues, List.find?_map, Option.map_map]
  rfl

theorem cells_addValues : (c.addValues g).cells = c.cells :=
  List.map_congr_left fun s _ => congrArg (flatIndex · c.betweenShape) (placement_addValues s)

/-- Where a subject was observed, its score is raised. -/
theorem score_addValues (hc : c.IsComplete) {s : ℕ} (hs : s < c.subjectCount) {x : List ℕ}
    (hx : InBounds x c.withinShape) : (c.addValues g).score s x = c.score s x + g s x := by
  rw [score, score, addValues, List.find?_map, Option.map_map]
  show Option.getD (Option.map _ (c.observations.find? fun o =>
    o.subject == s && o.levelsAt c.withinFactors == x)) 0 = _
  generalize hfind : c.observations.find? (fun o =>
    o.subject == s && o.levelsAt c.withinFactors == x) = found
  cases found with
  | none =>
    obtain ⟨o, ho, hsubject, hlevels⟩ := hc.observed s hs x hx
    have hnone := List.find?_eq_none.mp hfind o ho
    rw [hsubject, hlevels, beq_self_eq_true, beq_self_eq_true] at hnone
    exact absurd rfl hnone
  | some o =>
    have htest := List.find?_some hfind
    rw [Bool.and_eq_true, beq_iff_eq, beq_iff_eq] at htest
    obtain ⟨rfl, rfl⟩ := htest
    rfl

end Coding

namespace Design

/-- The design with a number added to each score, for the subject and the cell within subjects. -/
noncomputable def addScores (d : Design ℝ) (g : ℕ → List ℕ → ℝ) : Design ℝ :=
  (d.toCoding.addValues g).toDesign

namespace Accepted

variable {d : Design ℝ} (hd : d.Accepted)

include hd

theorem addScores (g : ℕ → List ℕ → ℝ) : (d.addScores g).Accepted where
  coherent := hd.coherent.addValues
  complete := hd.complete.addValues
  subjectCells_eq := rfl
  scores_eq := rfl
  one_le_factorCount := hd.one_le_factorCount
  factorCount_le := hd.factorCount_le
  subjectCount_pos := hd.subjectCount_pos
  levelCount_pos := hd.levelCount_pos
  levelCount_le := hd.levelCount_le

/-- The subjects stand where they stood. -/
theorem subjectCells_addScores (g : ℕ → List ℕ → ℝ) :
    (d.addScores g).subjectCells = d.subjectCells := by
  rw [hd.subjectCells_eq]
  exact Coding.cells_addValues

/-- A score of an accepted design is an observation. -/
theorem score_eq {i : ℕ} {x : List ℕ}
    (hin : InBounds (i :: x) (d.subjectCount :: d.withinShape)) :
    d.score i x = d.toCoding.score i x := by
  rw [score, hd.scores_eq, Coding.scoreTable, Grid.get_ofFn _ hin]

theorem score_addScores (g : ℕ → List ℕ → ℝ) {i : ℕ} (hi : i < d.subjectCount) {x : List ℕ}
    (hx : x ∈ positions d.withinShape) : (d.addScores g).score i x = d.score i x + g i x := by
  have hin : InBounds (i :: x) (d.subjectCount :: d.withinShape) := ⟨hi, mem_positions.mp hx⟩
  rw [hd.score_eq hin, (hd.addScores g).score_eq hin]
  exact Coding.score_addValues hd.complete hi hin.2

/-! ## Contrast scores -/

variable {s : Source} (hs : d.kindOf s = .within)

include hs

/-- A contrast score is the score on a combination of contrasts, by the number of cells that are
averaged. -/
theorem get_contrastColumns_eq_score {i c : ℕ} (hi : i < d.subjectCount)
    (hc : c < (d.contrastColumns s).cols) : (d.contrastColumns s).get i c =
      contrastScore (d.flags d.withinFactors s) (d.score i)
        (unravel (contrastShape (droppedShape (d.flags d.withinFactors s))) c) /
          joined (d.flags d.withinFactors s) := by
  have hmem : s ∈ d.sourcesWithin := hd.mem_sourcesWithin.mpr
    ((hd.kindOf_eq_within_iff.mp hs).imp_left Nonempty.ne_empty)
  obtain ⟨-, hsub⟩ := hd.mem_sourcesWithin.mp hmem
  rw [← hd.scoreMatrix_toFinset hmem] at hc ⊢
  rw [hd.get_scoreMatrix hsub hi hc,
    flags_eq_flagged d.toCoding fun f hf => hd.lt_of_mem_withinFactors hf, contrastScore,
    map_fst_flagged]
  exact congrArg (· / _) (sum_congr rfl fun z _ => mul_comm _ _)

/-- Numbers that have no score on the combinations of contrasts do not change the contrast
scores. -/
theorem contrastColumns_addScores_of_score {g : ℕ → List ℕ → ℝ} (hg : ∀ i < d.subjectCount,
    ∀ b ∈ combinations (d.flags d.withinFactors s),
      contrastScore (d.flags d.withinFactors s) (g i) b = 0) :
    (d.addScores g).contrastColumns s = d.contrastColumns s := by
  have hd' := hd.addScores g
  have hcols : ((d.addScores g).contrastColumns s).cols = (d.contrastColumns s).cols := by
    rw [cols_contrastColumns, cols_contrastColumns]
    rfl
  refine Mat.ext_get ?_ hcols fun i c hi hc => ?_
  · rw [hd.rows_contrastColumns, hd'.rows_contrastColumns]
    rfl
  have hi : i < d.subjectCount := hi.trans_eq (hd'.rows_contrastColumns s)
  have hc' : c < (d.contrastColumns s).cols := hcols ▸ hc
  have hb : unravel (contrastShape (droppedShape (d.flags d.withinFactors s))) c ∈
      combinations (d.flags d.withinFactors s) := by
    rw [cols_contrastColumns] at hc'
    exact mem_positions.mpr (inBounds_unravel hc')
  have hraised : ∀ x ∈ positions ((d.flags d.withinFactors s).map (·.1)),
      (d.addScores g).score i x = d.score i x + g i x := by
    intro x hx
    rw [Coding.map_fst_flags] at hx
    exact hd.score_addScores g hi hx
  rw [hd'.get_contrastColumns_eq_score hs hi hc, hd.get_contrastColumns_eq_score hs hi hc']
  refine congrArg (· / _) ?_
  show contrastScore (d.flags d.withinFactors s) ((d.addScores g).score i)
    (unravel (contrastShape (droppedShape (d.flags d.withinFactors s))) c) = _
  rw [contrastScore_congr hraised]
  refine ((isLinearMap_contrastScore _ _).map_add (d.score i) (g i)).trans ?_
  rw [hg i hi _ hb, add_zero]

/-- Nor do sums of numbers each of which does not depend on the level of some factor of the
source. -/
theorem contrastColumns_addScores {parts : List (ℕ × (ℕ → List ℕ → ℝ))}
    (hparts : ∀ p ∈ parts, p.1 ∈ d.withinAxes s ∧
      ∀ i < d.subjectCount, IgnoresAxis d.withinShape p.1 (p.2 i)) :
    (d.addScores fun i x => (parts.map fun p => p.2 i x).sum).contrastColumns s =
      d.contrastColumns s := by
  have haxes : ∀ a ∈ d.flags d.withinFactors s, 0 < a.1 ∧ a.1 ≤ maxWithinLevels := by
    rw [hd.flags_within]
    exact bounds_flagged (fun f hf => hd.levelCount_within hf) _
  refine hd.contrastColumns_addScores_of_score hs ?_
  intro i hi b hb
  -- the parts that one subject sees
  have hparts : ∀ p ∈ parts.map fun p => (p.1, p.2 i),
      (∃ n, (d.flags d.withinFactors s)[p.1]? = some (n, true)) ∧
        IgnoresAxis ((d.flags d.withinFactors s).map (·.1)) p.1 p.2 := by
    refine List.forall_mem_map.mpr fun p hp => ?_
    rw [Coding.map_fst_flags]
    exact ⟨d.getElem?_flags (hparts p hp).1, (hparts p hp).2 i hi⟩
  have hzero := contrastScore_of_sum_ignores haxes hb hparts
  simpa only [List.map_map, Function.comp_def] using hzero

end Accepted

/-- **Contrast scores see their own interaction only.**  To the scores of a design numbers are added
that are a sum of functions of the subject and the cell within subjects, each of which does not
depend on the level of some factor of a source.  The contrast scores of the source stay the same. -/
theorem contrastScores_addScores {t : ObservationTable ℝ} (ht : t.Built) {settings : Settings}
    {d : Design ℝ} (h : ofTable t settings = .ok d) {s : Source} (hs : d.kindOf s = .within)
    {parts : List (ℕ × (ℕ → List ℕ → ℝ))}
    (hparts : ∀ p ∈ parts, p.1 ∈ d.withinAxes s ∧
      ∀ i < d.subjectCount, IgnoresAxis d.withinShape p.1 (p.2 i)) :
    let d' := d.addScores fun i x => (parts.map fun p => p.2 i x).sum
    (d'.factors = d.factors ∧ d'.subjects = d.subjects ∧ d'.subjectCells = d.subjectCells ∧
      ∀ i < d.subjectCount, ∀ x ∈ positions d.withinShape,
        d'.score i x = d.score i x + (parts.map fun p => p.2 i x).sum) ∧
      ∃ D, d.contrastScores s = .ok D ∧ d'.contrastScores s = .ok D := by
  intro d'
  have hd := accepted_of_ofTable ht h
  have hcells := hd.subjectCells_addScores fun i x => (parts.map fun p => p.2 i x).sum
  refine ⟨⟨rfl, rfl, hcells, fun i hi x hx => hd.score_addScores _ hi hx⟩,
    d.scoresOf s, hd.contrastScores_eq_ok hs, ?_⟩
  have hcolumns : d'.contrastColumns s = d.contrastColumns s :=
    hd.contrastColumns_addScores hs hparts
  rw [(hd.addScores _).contrastScores_eq_ok hs, scoresOf, scoresOf, statistics, statistics,
    hcolumns, hcells]
  rfl

/-- One number for each task and another one for each occasion leave the interaction of the two as
it is. -/
theorem interaction_occasionsDesign : twoOccasions.Built ∧
    ofTable twoOccasions {} = .ok occasionsDesign ∧
    occasionsDesign.kindOf (.span [0, 1]) = .within ∧
    ∃ D, occasionsDesign.contrastScores (.span [0, 1]) = .ok D ∧
      (occasionsDesign.addScores fun _ x =>
        (x.getD 1 0 : ℝ) ^ 2 + 2 * (x.getD 0 0 : ℝ)).contrastScores (.span [0, 1]) = .ok D := by
  have hs : occasionsDesign.kindOf (.span [0, 1]) = .within := by decide
  have hparts :
      ∀ p ∈ ([(0, fun _ x => (x.getD 1 0 : ℝ) ^ 2), (1, fun _ x => 2 * (x.getD 0 0 : ℝ))] :
          List (ℕ × (ℕ → List ℕ → ℝ))), p.1 ∈ occasionsDesign.withinAxes (.span [0, 1]) ∧
        ∀ i < occasionsDesign.subjectCount,
          IgnoresAxis occasionsDesign.withinShape p.1 (p.2 i) := by
    refine List.forall_mem_cons.mpr ⟨⟨by decide, fun _ _ x k _ _ => ?_⟩,
      List.forall_mem_singleton.mpr ⟨by decide, fun _ _ x k _ _ => ?_⟩⟩
    · simp [List.getD_eq_getElem?_getD]
    · simp [List.getD_eq_getElem?_getD]
  obtain ⟨-, D, hD, hD'⟩ :=
    contrastScores_addScores built_twoOccasions ofTable_twoOccasions hs hparts
  simp only [List.map_cons, List.map_nil, List.sum_cons, List.sum_nil, add_zero] at hD'
  exact ⟨built_twoOccasions, ofTable_twoOccasions, hs, D, hD, hD'⟩

end Design

end SplitPlot
