import Mathlib
import SplitPlot.Proofs.Design.Accepted
import SplitPlot.Proofs.Partial.Tables

/-!
# Designs with values that may be undefined

The value of each row of a table is taken to another number (`ObservationTable.map`), and so are the
scores of a design (`Design.map`).  A table with defined values is accepted or refused as it is in
exact arithmetic, for the same reason, and its design has the same scores (`Design.ofTable_map_of`).
The only division is the one in a mean of replicates, of which there is at least one.
-/

namespace SplitPlot

variable {K L : Type}

/-! ## Rows and codes -/

/-- The observation with its value taken to another number. -/
def Observation.map (f : K → L) (o : Observation K) : Observation L :=
  ⟨o.subject, o.levels, f o.value⟩

/-- The table with each value taken to another number. -/
def ObservationTable.map (f : K → L) (t : ObservationTable K) : ObservationTable L :=
  ⟨t.width?, t.rows.map (Observation.map f)⟩

/-- The coded observation with its value taken to another number. -/
def CodedObservation.map (f : K → L) (o : CodedObservation K) : CodedObservation L :=
  ⟨o.subject, o.levels, f o.value⟩

/-- The coding with each value taken to another number. -/
def Coding.map (f : K → L) (c : Coding K) : Coding L :=
  ⟨c.factors, c.subjects, c.observations.map (CodedObservation.map f)⟩

/-- The design with each value and each score taken to another number. -/
def Design.map (f : K → L) (d : Design K) : Design L :=
  { d.toCoding.map f with subjectCells := d.subjectCells, scores := d.scores.map f }

/-! ## Tables -/

namespace ObservationTable

theorem Built.map_of {t : ObservationTable ℝ} (ht : t.Built) (c : Comparison) :
    (t.map (Checked.of c)).Built := by
  induction ht with
  | empty => exact .empty
  | push t o _ ih =>
    have hpush : ((t.map (Checked.of c)).push (o.map (Checked.of c))).2 =
        ((t.push o).2).map (Checked.of c) := by
      have hfinite : Scalar.IsFinite (o.map (Checked.of c)).value := Checked.isFinite_of
      rw [ObservationTable.push, ObservationTable.push]
      dsimp only
      rw [if_neg (not_not.mpr hfinite), if_neg (not_not.mpr (isFinite o.value))]
      simp only [apply_ite Prod.snd, apply_ite (ObservationTable.map (Checked.of c))]
      simp only [ObservationTable.map, List.map_append, List.map_singleton]
      rfl
    rw [← hpush]
    exact .push _ _ ih

section Keys

variable (f : K → L) (t : ObservationTable K)

@[simp] theorem map_key_rows_map :
    (t.map f).rows.map Observation.key = t.rows.map Observation.key :=
  List.map_map

/-- The first repeated row is the one that was repeated before. -/
theorem firstRepeat?_map :
    (t.map f).firstRepeat? = t.firstRepeat?.map fun r => (r.1, r.2.map f) := by
  rw [firstRepeat?, firstRepeat?]
  show (((t.rows.map (Observation.map f)).zipIdx.find? _).map _) = _
  rw [List.zipIdx_map, List.find?_map, Option.map_map, Option.map_map]
  have htest : (fun r : Observation L × ℕ => ((t.rows.map (Observation.map f)).take r.2).any
      fun o => o.key == r.1.key) ∘ Prod.map (Observation.map f) id =
        fun r => (t.rows.take r.2).any fun o => o.key == r.1.key := by
    funext r
    rw [Function.comp_apply, ← List.map_take, List.any_map]
    rfl
  show ((t.rows.zipIdx.find? ((fun r : Observation L × ℕ =>
    ((t.rows.map (Observation.map f)).take r.2).any fun o => o.key == r.1.key) ∘
      Prod.map (Observation.map f) id)).map _) = _
  rw [htest]
  rfl

end Keys

variable {c : Comparison} (t : ObservationTable ℝ)

/-- Each key has a row, so the values of its rows have a mean. -/
theorem averages_map_of :
    (t.map (Checked.of c)).averages = t.averages.map (Observation.map (Checked.of c)) := by
  rw [averages, averages, map_key_rows_map, List.map_map]
  refine List.map_congr_left fun key hkey => ?_
  obtain ⟨o, ho, rfl⟩ := List.mem_map.mp (mem_ascending.mp hkey)
  have hvalues : (((t.map (Checked.of c)).rows.filter fun r => r.key == o.key).map (·.value)) =
      ((t.rows.filter fun r => r.key == o.key).map (·.value)).map (Checked.of c) := by
    show (((t.rows.map (Observation.map (Checked.of c))).filter _).map _) = _
    rw [List.filter_map, List.map_map, List.map_map]
    rfl
  have hne : ((t.rows.filter fun r => r.key == o.key).map (·.value)) ≠ [] := by
    rw [Ne, List.map_eq_nil_iff]
    exact List.ne_nil_of_mem (List.mem_filter.mpr ⟨ho, beq_self_eq_true _⟩)
  rw [average, hvalues, Checked.mean_map_of hne]
  rfl

theorem deduplicate_map_of (policy : DuplicatePolicy) : (t.map (Checked.of c)).deduplicate policy =
    (t.deduplicate policy).map (List.map (Observation.map (Checked.of c))) := by
  cases policy with
  | average => exact congrArg Except.ok t.averages_map_of
  | reject =>
    rw [deduplicate, deduplicate, firstRepeat?_map]
    cases t.firstRepeat? with
    | none => exact congrArg Except.ok t.averages_map_of
    | some r => rfl

end ObservationTable

/-! ## Levels and kinds -/

section Classification

variable (f : K → L) (rows : List (Observation K))

theorem columnLevels_map : columnLevels (rows.map (Observation.map f)) = columnLevels rows := by
  funext i
  rw [columnLevels, columnLevels, List.filterMap_map]
  rfl

theorem variesWithin_map (levels : List (List Level)) (i : ℕ) :
    variesWithin (rows.map (Observation.map f)) levels i = variesWithin rows levels i := by
  have hslice : referenceSlice (rows.map (Observation.map f)) levels i =
      (referenceSlice rows levels i).map (Observation.map f) := List.filter_map
  rw [variesWithin, variesWithin, hslice, List.map_map, List.length_map]
  rfl

theorem classifyFactors_map (names : List String) :
    classifyFactors (rows.map (Observation.map f)) names = classifyFactors rows names := by
  rw [classifyFactors, classifyFactors, columnLevels_map]
  refine congrArg (fun g => List.mapM g names.zipIdx) (funext fun named => ?_)
  rw [classifyFactor, classifyFactor, variesWithin_map]

end Classification

/-! ## Codings -/

namespace Coding

section Places

variable (f : K → L) (c : Coding K)

theorem placement_map (s : ℕ) : (c.map f).placement s = c.placement s := by
  rw [placement, placement]
  show (((c.observations.map (CodedObservation.map f)).find? _).map _).getD [] = _
  rw [List.find?_map, Option.map_map]
  rfl

theorem straddling?_map : (c.map f).straddling? = c.straddling? := by
  rw [straddling?, straddling?]
  show (c.observations.map (CodedObservation.map f)).findSome? _ = _
  rw [List.findSome?_map]
  refine congrArg (fun g => List.findSome? g c.observations) (funext fun o => ?_)
  show Option.map _ (((c.map f).placement o.subject).zip _ |>.findIdx? _) = _
  rw [placement_map]
  rfl

theorem cells_map : (c.map f).cells = c.cells := by
  rw [cells, cells]
  exact List.map_congr_left fun s _ => congrArg (flatIndex · c.betweenShape) (c.placement_map f s)

theorem deserted?_map : (c.map f).deserted? = c.deserted? := by
  rw [deserted?, deserted?, cells_map]
  rfl

theorem observed_map (s : ℕ) : (c.map f).observed s = c.observed s := List.countP_map

theorem incomplete?_map : (c.map f).incomplete? = c.incomplete? := by
  simp only [incomplete?, observed_map]
  rfl

end Places

variable {c : Comparison} (e : Coding ℝ)

theorem score_map_of (s : ℕ) (index : List ℕ) :
    (e.map (Checked.of c)).score s index = Checked.of c (e.score s index) := by
  rw [score, score]
  show (((e.observations.map (CodedObservation.map (Checked.of c))).find? _).map _).getD 0 = _
  rw [List.find?_map, Option.map_map]
  show Option.getD (Option.map _ (e.observations.find? fun o =>
    o.subject == s && o.levelsAt e.withinFactors == index)) 0 = _
  cases e.observations.find? fun o => o.subject == s && o.levelsAt e.withinFactors == index <;> rfl

theorem scoreTable_map_of :
    (e.map (Checked.of c)).scoreTable = e.scoreTable.map (Checked.of c) := by
  rw [scoreTable, scoreTable, Grid.map_ofFn]
  refine congrArg (Grid.ofFn _) (funext fun index => ?_)
  cases index with
  | nil => rfl
  | cons s index => exact e.score_map_of s index

theorem complete_map_of :
    (e.map (Checked.of c)).complete = e.complete.map (Design.map (Checked.of c)) := by
  have hdesign : ({ e.map (Checked.of c) with
      subjectCells := (e.map (Checked.of c)).cells
      scores := (e.map (Checked.of c)).scoreTable } : Design (Checked c)) =
      Design.map (Checked.of c) { e with subjectCells := e.cells, scores := e.scoreTable } := by
    rw [cells_map, scoreTable_map_of]
    rfl
  rw [complete, complete, hdesign, straddling?_map, deserted?_map, incomplete?_map]
  cases e.straddling? with
  | some _ => rfl
  | none =>
    dsimp only
    cases e.deserted? with
    | some _ => rfl
    | none =>
      dsimp only
      cases e.incomplete? with
      | some s =>
        dsimp only
        rw [observed_map]
        rfl
      | none => rfl

end Coding

/-! ## Designs -/

namespace Design

/-- A table with defined values is accepted or refused as in exact arithmetic. -/
theorem ofTable_map_of (t : ObservationTable ℝ) (settings : Settings) (c : Comparison) :
    ofTable (t.map (Checked.of c)) settings =
      (ofTable t settings).map (Design.map (Checked.of c)) := by
  have hnames : factorNames? (t.map (Checked.of c)) settings = factorNames? t settings := by
    have hempty : (t.map (Checked.of c)).isEmpty = t.isEmpty := List.isEmpty_map
    rw [factorNames?, factorNames?, hempty]
    rfl
  rw [ofTable, ofTable, hnames, t.deduplicate_map_of]
  cases factorNames? t settings with
  | error _ => rfl
  | ok names =>
    cases t.deduplicate settings.duplicates with
    | error _ => rfl
    | ok rows =>
      show (classifyFactors (rows.map (Observation.map (Checked.of c))) names >>= fun factors =>
        _) = Except.map _ (classifyFactors rows names >>= fun factors => _)
      rw [classifyFactors_map]
      cases classifyFactors rows names with
      | error _ => rfl
      | ok factors =>
        show Coding.complete ⟨factors,
          ascending ((rows.map (Observation.map (Checked.of c))).map (·.subject)), _⟩ = _
        have hsubjects : (rows.map (Observation.map (Checked.of c))).map (·.subject) =
            rows.map (·.subject) := List.map_map
        have hcodes : ∀ subjects, (rows.map (Observation.map (Checked.of c))).map
            (encode factors subjects) =
              (rows.map (encode factors subjects)).map (CodedObservation.map (Checked.of c)) := by
          intro subjects
          rw [List.map_map, List.map_map]
          rfl
        rw [hsubjects, hcodes]
        exact Coding.complete_map_of ⟨factors, ascending (rows.map (·.subject)), _⟩

end Design

end SplitPlot
