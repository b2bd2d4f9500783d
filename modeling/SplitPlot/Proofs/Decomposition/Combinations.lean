import Mathlib
import SplitPlot.Proofs.Decomposition.Scores
import SplitPlot.Proofs.Design.Observations
import SplitPlot.Proofs.Relabelling.Axes
import SplitPlot.Proofs.Relabelling.Contrasts

/-!
# Contrast scores as sums over observations

A contrast score is reached in several steps, and each of them counts the cells in another way.  The
axes outside the source are averaged out, from the last to the first; what is left is numbered
through again; the numbers are matched with the rows of a matrix of weights, which an odometer has
made; and the columns are divided by their norms.

None of this can be seen in the result (`Accepted.get_contrastColumns_observations`).  The score of
a subject is one sum over its observations.  The weight of an observation is the product of one
coefficient for each factor of the source (`combinedWeight`), read at the level that the observation
has there.  The number of a column, read as a position along the factors of the source, says which
row of coefficients belongs to which factor, and the coefficients are never sought outside their
table (`exists_coefficients`).
-/

namespace SplitPlot

open Finset

/-! ## Rows of coefficients -/

theorem map_length_coefficients : ∀ n ∈ List.range' 1 maxWithinLevels, ∀ c ∈ List.range (n - 1),
    (coefficients n c).map List.length = some n := by
  decide

/-- Every contrast of a factor has a row of coefficients, one for each level. -/
theorem exists_coefficients {n c : ℕ} (hpos : 0 < n) (hle : n ≤ maxWithinLevels) (hc : c < n - 1) :
    ∃ row, coefficients n c = some row ∧ row.length = n := by
  have h := map_length_coefficients n (mem_table hpos hle) c (List.mem_range.mpr hc)
  exact Option.map_eq_some_iff.mp h

theorem levelWeight_of_coefficients {n c : ℕ} {row : List ℤ} (h : coefficients n c = some row)
    (i : ℕ) : levelWeight n c i = row.getD i 0 := by
  rw [levelWeight, h, Option.map_some, Option.getD_some]

/-- The product of the coefficients that listed factors have at given levels. -/
def combinedWeight (factors : List ℕ) (row : ℕ → List ℤ) (level : ℕ → ℕ) : ℤ :=
  (factors.map fun f => (row f).getD (level f) 0).prod

/-- The Euclidean norm of the weights of all cells of the factors. -/
noncomputable def weightNorm (extent : ℕ → ℕ) (factors : List ℕ) (row : ℕ → List ℤ) : ℝ :=
  √(∑ x ∈ positions (factors.map extent),
    (combinedWeight factors row (levelAt factors x) : ℝ) ^ 2)

theorem combinedWeight_congr {factors : List ℕ} {row : ℕ → List ℤ} {level level' : ℕ → ℕ}
    (h : ∀ f ∈ factors, level f = level' f) :
    combinedWeight factors row level = combinedWeight factors row level' :=
  congrArg List.prod (List.map_congr_left fun f hf => by rw [h f hf])

section Weights

variable {extent b : ℕ → ℕ} {row : ℕ → List ℤ} {factors : List ℕ}
  (hrow : ∀ f ∈ factors, coefficients (extent f) (b f) = some (row f))

include hrow

theorem contrastWeight_map (level : ℕ → ℕ) :
    contrastWeight (factors.map extent) (factors.map b) (factors.map level) =
      combinedWeight factors row level := by
  induction factors with
  | nil => rfl
  | cons f factors ih =>
    obtain ⟨hf, hfactors⟩ := List.forall_mem_cons.mp hrow
    rw [List.map_cons, List.map_cons, List.map_cons, contrastWeight_cons, ih hfactors,
      levelWeight_of_coefficients hf, combinedWeight, combinedWeight, List.map_cons, List.prod_cons]

/-- The norm that a column is divided by is that of its weights over the cells of the factors. -/
theorem contrastNorm_map (hnodup : factors.Nodup) :
    contrastNorm (factors.map extent) (factors.map b) = weightNorm extent factors row := by
  show √((squaredNorm (factors.map extent) (factors.map b) : ℤ) : ℝ) = _
  rw [squaredNorm_eq_sum, Int.cast_sum, weightNorm]
  refine congrArg _ (sum_congr rfl fun x hx => ?_)
  rw [← contrastWeight_map hrow, map_levelAt hnodup (length_of_mem_positions hx), Int.cast_pow]

end Weights

/-- The kept levels of a position are its levels at the factors of the set. -/
theorem keptLevels_map (extent a : ℕ → ℕ) (factors : List ℕ) (S : Finset ℕ) :
    keptLevels (flagged extent factors S) (factors.map a) = (factors.filter (· ∈ S)).map a := by
  induction factors with
  | nil => rfl
  | cons f factors ih =>
    by_cases hf : f ∈ S
    · rw [flagged_cons_of_mem extent hf, List.filter_cons_of_pos (by simpa using hf), List.map_cons,
        List.map_cons, keptLevels, ih]
    · rw [flagged_cons_of_notMem extent hf, List.filter_cons_of_neg (by simpa using hf),
        List.map_cons, keptLevels, ih]

/-! ## Contrast scores -/

namespace Design

/-- The sum of the observations of a subject, each weighted with the coefficients at its levels. -/
noncomputable def weightedSum (d : Design ℝ) (factors : List ℕ) (row : ℕ → List ℤ) (i : ℕ) : ℝ :=
  ((d.observations.filter fun o => o.subject == i).map fun o =>
    (o.value * combinedWeight factors row (fun f => o.levels.getD f 0) : ℝ)).sum

variable {d : Design ℝ}

namespace Accepted

variable (hd : d.Accepted) {s : Source} (hs : d.kindOf s = .within)

include hd hs

theorem withinPart_eq_toFinset : d.withinPart s = s.toFinset :=
  inter_eq_left.mpr (hd.kindOf_eq_within_iff.mp hs).2

/-- The factors of a source within subjects, as the design lists them. -/
theorem filter_withinFactors : d.withinFactors.filter (· ∈ s.toFinset) = s.factors := by
  refine eq_of_pairwise_of_mem_iff ((List.pairwise_lt_range.filter _).filter _)
    (List.pairwise_lt_range.filter _) fun f => ?_
  rw [List.mem_filter, decide_eq_true_eq, Source.mem_factors, Source.contains_iff]
  constructor
  · rintro ⟨hf, hmem⟩
    exact ⟨hd.lt_of_mem_withinFactors hf, hmem⟩
  · rintro ⟨-, hmem⟩
    exact ⟨List.mem_toFinset.mp ((hd.kindOf_eq_within_iff.mp hs).2 hmem), hmem⟩

theorem mem_withinFactors_of_mem_factors {f : ℕ} (hf : f ∈ s.factors) : f ∈ d.withinFactors := by
  rw [← hd.filter_withinFactors hs] at hf
  exact List.mem_of_mem_filter hf

omit hs in
theorem joined_within : joined (flagged d.levelCount d.withinFactors s.toFinset) =
    ((d.withinFactors.filter (· ∉ s.factors)).map d.levelCount).prod := by
  rw [joined_flagged]
  refine congrArg (fun l : List ℕ => (l.map d.levelCount).prod) (List.filter_congr fun f hf => ?_)
  rw [decide_eq_decide, Source.mem_factors, Source.contains_iff,
    and_iff_right (hd.lt_of_mem_withinFactors hf)]

/-- The shape of the cells of a source within subjects. -/
theorem droppedShape_within :
    droppedShape (d.flags d.withinFactors s) = s.factors.map d.levelCount := by
  rw [hd.flags_within, hd.withinPart_eq_toFinset hs, droppedShape_flagged,
    hd.filter_withinFactors hs]

theorem contrastShape_within : contrastShape (droppedShape (d.flags d.withinFactors s)) =
    s.factors.map fun f => d.levelCount f - 1 := by
  rw [hd.droppedShape_within hs, contrastShape, List.map_map]
  rfl

theorem cols_contrastColumns_within :
    (d.contrastColumns s).cols = (s.factors.map fun f => d.levelCount f - 1).prod := by
  rw [cols_contrastColumns, hd.contrastShape_within hs, cellCount, List.prod_eq_foldr]

/-- A contrast score is a sum over the observations of the subject, weighted with the coefficients
of one contrast of each factor. -/
theorem get_contrastColumns_observations {b : ℕ → ℕ} {row : ℕ → List ℤ} {c i : ℕ}
    (hb : unravel (s.factors.map fun f => d.levelCount f - 1) c = s.factors.map b)
    (hrow : ∀ f ∈ s.factors, coefficients (d.levelCount f) (b f) = some (row f))
    (hc : c < (d.contrastColumns s).cols) (hi : i < d.subjectCount) :
    (d.contrastColumns s).get i c = d.weightedSum s.factors row i /
      (((d.withinFactors.filter (· ∉ s.factors)).map d.levelCount).prod *
        weightNorm d.levelCount s.factors row) := by
  have hflags : d.flags d.withinFactors s = flagged d.levelCount d.withinFactors s.toFinset := by
    rw [hd.flags_within, hd.withinPart_eq_toFinset hs]
  rw [cols_contrastColumns] at hc
  rw [hd.get_contrastColumns s hi hc, sum_droppedShape, hd.contrastShape_within hs, hb,
    hd.droppedShape_within hs, contrastNorm_map hrow s.nodup_factors, hflags,
    hd.joined_within, map_fst_flagged, div_div]
  -- a cell has the weight of the observation in it
  have hweight : ∀ x ∈ positions (d.withinFactors.map d.levelCount),
      contrastWeight (s.factors.map d.levelCount) (s.factors.map b)
        (keptLevels (flagged d.levelCount d.withinFactors s.toFinset) x) =
          combinedWeight s.factors row (levelAt d.withinFactors x) := fun x hx => by
    have hkept := keptLevels_map d.levelCount (levelAt d.withinFactors x) d.withinFactors s.toFinset
    rw [map_levelAt (nodup_withinFactors d.toCoding) (length_of_mem_positions hx),
      hd.filter_withinFactors hs] at hkept
    rw [hkept, contrastWeight_map hrow]
  have hterm : ∀ o ∈ d.observations.filter fun o => o.subject == i,
      o.value * (combinedWeight s.factors row (fun f => o.levels.getD f 0) : ℝ) =
        o.value * combinedWeight s.factors row
          (levelAt d.withinFactors (o.levelsAt d.withinFactors)) := fun o _ => by
    rw [combinedWeight_congr fun f hf => (levelAt_map (fun g => o.levels.getD g 0)
      (hd.mem_withinFactors_of_mem_factors hs hf)).symm]
    rfl
  rw [weightedSum, List.map_congr_left hterm, hd.sum_observations_subject hi fun v x =>
    v * (combinedWeight s.factors row (levelAt d.withinFactors x) : ℝ)]
  exact congrArg (· / _) (sum_congr rfl fun x hx => by rw [hweight x hx]; rfl)

end Accepted

/-- The contrast scores of a source within subjects can be formed.  There is a column for each
combination of contrasts of its factors, and the score of a subject there is the weighted sum of its
observations, divided by the number of cells that are averaged and by the norm of the weights. -/
theorem contrastScores_observations (t : ObservationTable ℝ) (ht : t.Built) (settings : Settings)
    (d : Design ℝ) (h : ofTable t settings = .ok d) (s : Source) (hs : d.kindOf s = .within) :
    ∃ D, d.contrastScores s = .ok D ∧ D.columns.rows = d.subjectCount ∧
      D.columns.cols = (s.factors.map fun f => d.levelCount f - 1).prod ∧
      ∀ c < D.columns.cols, ∃ row : ℕ → List ℤ,
        (∀ f ∈ s.factors, (row f).length = d.levelCount f ∧
          coefficients (d.levelCount f) (levelAt s.factors
            (unravel (s.factors.map fun f => d.levelCount f - 1) c) f) = some (row f)) ∧
        0 < weightNorm d.levelCount s.factors row ∧
        ∀ i < d.subjectCount, D.columns.get i c = d.weightedSum s.factors row i /
          (((d.withinFactors.filter (· ∉ s.factors)).map d.levelCount).prod *
            weightNorm d.levelCount s.factors row) := by
  have hd := accepted_of_ofTable ht h
  have hnodup : s.factors.Nodup := List.nodup_range.filter _
  have hlevels : ∀ f ∈ s.factors, 0 < d.levelCount f ∧ d.levelCount f ≤ maxWithinLevels :=
    fun f hf => hd.levelCount_within (hd.mem_withinFactors_of_mem_factors hs hf)
  have hcols := hd.cols_contrastColumns_within hs
  refine ⟨_, hd.contrastScores_eq_ok hs, hd.rows_contrastColumns s, hcols, fun c hc => ?_⟩
  -- the column as a position along the factors
  have hcell : c < cellCount (s.factors.map fun f => d.levelCount f - 1) := by
    rw [← hd.contrastShape_within hs, ← cols_contrastColumns]
    exact hc
  have hposition := mem_positions.mpr (inBounds_unravel hcell)
  have hb := (map_levelAt hnodup (length_of_mem_positions hposition)).symm
  have hrows : ∀ f, ∃ row : List ℤ, f ∈ s.factors → row.length = d.levelCount f ∧
      coefficients (d.levelCount f) (levelAt s.factors
        (unravel (s.factors.map fun f => d.levelCount f - 1) c) f) = some row := by
    intro f
    by_cases hf : f ∈ s.factors
    · obtain ⟨row, hrow, hlength⟩ := exists_coefficients (hlevels f hf).1 (hlevels f hf).2
        (levelAt_lt hposition hf)
      exact ⟨row, fun _ => ⟨hlength, hrow⟩⟩
    · exact ⟨[], fun hmem => absurd hmem hf⟩
  choose row hrow using hrows
  refine ⟨row, hrow, ?_, fun i hi =>
    hd.get_contrastColumns_observations hs hb (fun f hf => (hrow f hf).2) hc hi⟩
  rw [← contrastNorm_map (fun f hf => (hrow f hf).2) hnodup, ← hb]
  refine contrastNorm_pos (List.forall_mem_map.mpr hlevels) ?_
  rw [mem_multiIndices, contrastShape, List.map_map]
  exact inBounds_unravel hcell

/-- One subject, observed once at two occasions of three tasks each. -/
noncomputable def twoOccasions : ObservationTable ℝ :=
  wholeTable 2 [(1, [0, 0], 4), (1, [0, 1], 6), (1, [0, 2], 5), (1, [1, 0], 3), (1, [1, 1], 9),
    (1, [1, 2], 8)]

/-- The design of the subject. -/
noncomputable def occasionsDesign : Design ℝ := (tableCoding twoOccasions {}).toDesign

theorem built_twoOccasions : twoOccasions.Built := built_wholeTable (by decide) (by decide)

theorem ofTable_twoOccasions : ofTable twoOccasions {} = .ok occasionsDesign := rfl

/-- The second contrast of the tasks, with the occasions averaged. -/
theorem contrastScores_occasionsDesign : twoOccasions.Built ∧
    ofTable twoOccasions {} = .ok occasionsDesign ∧ occasionsDesign.kindOf (.span [1]) = .within ∧
      ∃ D, occasionsDesign.contrastScores (.span [1]) = .ok D ∧ D.columns.cols = 2 ∧
        D.columns.get 0 1 = occasionsDesign.weightedSum [1] (fun _ => [1, -2, 1]) 0 / (2 * √6) := by
  have ht : twoOccasions.Built := built_wholeTable (by decide) (by decide)
  have h : ofTable twoOccasions {} = .ok occasionsDesign := rfl
  have hs : occasionsDesign.kindOf (.span [1]) = .within := by decide
  obtain ⟨D, hD, -, hcols, hscores⟩ := contrastScores_observations twoOccasions ht {} _ h _ hs
  have htwo : D.columns.cols = 2 := hcols.trans (by decide)
  obtain ⟨row, hrow, -, hget⟩ := hscores 1 (by rw [htwo]; decide)
  have hfactors : (Source.span [1]).factors = [1] := by decide
  rw [hfactors] at hrow hget
  -- the second row of the table for three levels
  have hone : row 1 = [1, -2, 1] :=
    (Option.some.inj ((hrow 1 (List.mem_singleton_self 1)).2)).symm
  have hweights : ∀ level : ℕ → ℕ, combinedWeight [1] row level =
      combinedWeight [1] (fun _ => [1, -2, 1]) level := fun level => by
    rw [combinedWeight, combinedWeight, List.map_singleton, List.map_singleton, hone]
  have hnorm : weightNorm occasionsDesign.levelCount [1] row = √6 := by
    rw [← contrastNorm_map (b := fun _ => 1) (fun f hf => ?_) (List.nodup_singleton 1)]
    · show √((6 : ℤ) : ℝ) = √6
      norm_num
    · rw [List.mem_singleton.mp hf, hone]
      decide
  have hjoined : ((occasionsDesign.withinFactors.filter (· ∉ [1])).map
      occasionsDesign.levelCount).prod = 2 := by decide
  refine ⟨ht, h, hs, D, hD, htwo, ?_⟩
  rw [hget 0 (by decide), hnorm, hjoined, Nat.cast_ofNat, weightedSum, weightedSum]
  simp only [hweights]

end Design

end SplitPlot
