import Mathlib
import SplitPlot.Proofs.Design.Encoding

/-!
# Combinations of levels

The positions of a shape stand for the combinations of levels of some factors.  `choices` lists the
combinations themselves, without codes: one member of each list, the last one varying fastest.

* The odometer shows the combinations of codes (`multiIndices_eq_choices`), and the levels with
  these codes are the combinations of levels, in the same order (`choices_map`).
* Combinations of ascending lists ascend lexicographically (`pairwise_choices`), so the order in
  which an odometer counts is the order in which an ascending list of positions stands.
* A row has the levels of a combination at some factors (`Observation.At`) exactly when its code has
  the position that stands for it (`at_pick_iff`).
-/

namespace SplitPlot

/-! ## One member of each list -/

/-- Every way to choose one member of each list, the last choice varying fastest. -/
def choices {α : Type} : List (List α) → List (List α)
  | [] => [[]]
  | l :: lists => l.flatMap fun a => (choices lists).map (a :: ·)

section Members

variable {α : Type}

@[simp] theorem choices_nil : choices ([] : List (List α)) = [[]] := rfl

theorem choices_cons (l : List α) (lists : List (List α)) :
    choices (l :: lists) = l.flatMap fun a => (choices lists).map (a :: ·) := rfl

/-- Choices from ascending lists ascend. -/
theorem pairwise_choices [LT α] : ∀ {lists : List (List α)},
    (∀ l ∈ lists, l.Pairwise (· < ·)) → (choices lists).Pairwise (· < ·)
  | [], _ => List.pairwise_singleton _ _
  | l :: lists, h => by
    obtain ⟨hl, hlists⟩ := List.forall_mem_cons.mp h
    rw [choices_cons, List.pairwise_flatMap]
    refine ⟨fun a _ => List.pairwise_map.mpr ?_, hl.imp fun {a b} hab x hx y hy => ?_⟩
    · exact (pairwise_choices hlists).imp fun hxy => List.Lex.cons hxy
    · obtain ⟨x, -, rfl⟩ := List.mem_map.mp hx
      obtain ⟨y, -, rfl⟩ := List.mem_map.mp hy
      exact List.Lex.rel hab

end Members

/-! ## The odometer -/

/-- A range is gone through block by block. -/
theorem map_range_mul {β : Type} (g : ℕ → β) (n m : ℕ) : (List.range (n * m)).map g =
    (List.range n).flatMap fun i => (List.range m).map fun j => g (i * m + j) := by
  induction n with
  | zero => rw [Nat.zero_mul, List.range_zero, List.map_nil, List.flatMap_nil]
  | succ n ih =>
    rw [Nat.add_one_mul, List.range_add, List.map_append, ih, List.range_succ, List.flatMap_append,
      List.flatMap_singleton, List.map_map]
    rfl

/-- The first axis counts blocks of the others. -/
theorem multiIndices_cons (n : ℕ) (shape : List ℕ) : multiIndices (n :: shape) =
    (List.range n).flatMap fun i => (multiIndices shape).map (i :: ·) := by
  rw [multiIndices_eq, cellCount_cons, map_range_mul, multiIndices_eq]
  refine List.flatMap_congr fun i hi => ?_
  rw [List.map_map]
  refine List.map_congr_left fun j hj => ?_
  have hj' := List.mem_range.mp hj
  rw [unravel_cons, unravel_add_mul, Nat.add_comm, Nat.add_mul_div_right _ _ (by omega),
    Nat.div_eq_of_lt hj', Nat.zero_add, Nat.mod_eq_of_lt (List.mem_range.mp hi)]
  rfl

/-- The odometer shows one code below each extent. -/
theorem multiIndices_eq_choices (shape : List ℕ) :
    multiIndices shape = choices (shape.map List.range) := by
  induction shape with
  | nil => rfl
  | cons n shape ih => rw [multiIndices_cons, ih, List.map_cons, choices_cons]

/-- The odometer counts in the order of ascending lists. -/
theorem pairwise_multiIndices (shape : List ℕ) : (multiIndices shape).Pairwise (· < ·) := by
  rw [multiIndices_eq_choices]
  refine pairwise_choices fun l hl => ?_
  obtain ⟨n, -, rfl⟩ := List.mem_map.mp hl
  exact List.pairwise_lt_range

/-! ## Levels and their codes -/

/-- The levels that a position along some factors stands for. -/
def pick (levels : ℕ → List Level) (factors index : List ℕ) : List Level :=
  (index.zip factors).map fun e => (levels e.2).getD e.1 default

theorem pick_map (levels : ℕ → List Level) (factors : List ℕ) (b : ℕ → ℕ) :
    pick levels factors (factors.map b) = factors.map fun f => (levels f).getD (b f) default := by
  rw [pick, ← List.map_prod_right_eq_zip, List.map_map]
  rfl

/-- The combinations of levels, in the order of the odometer. -/
theorem choices_map (levels : ℕ → List Level) (factors : List ℕ) : choices (factors.map levels) =
    (multiIndices (factors.map fun f => (levels f).length)).map (pick levels factors) := by
  induction factors with
  | nil => rfl
  | cons f factors ih =>
    -- a list is what its places show
    have hplaces : levels f =
        (List.range (levels f).length).map fun i => (levels f).getD i default := by
      refine List.ext_getElem (by simp) fun i hi _ => ?_
      rw [List.getElem_map, List.getElem_range, List.getD_eq_getElem _ _ hi]
    rw [List.map_cons, choices_cons, List.map_cons, multiIndices_cons, List.map_flatMap, ih]
    conv_lhs => rw [hplaces]
    rw [List.flatMap_map]
    refine List.flatMap_congr fun i _ => ?_
    rw [List.map_map, List.map_map]
    rfl

/-! ## Combinations of the levels of a table -/

section Rows

variable {K : Type}

/-- The combinations of the levels that occur at some factors, the last factor varying fastest. -/
def levelCombinations (rows : List (Observation K)) (factors : List ℕ) : List (List Level) :=
  choices (factors.map (columnLevels rows))

/-- A row has a combination of levels of some factors. -/
def Observation.At (r : Observation K) (factors : List ℕ) (combination : List Level) : Prop :=
  factors.map (r.levels[·]?) = combination.map some

instance (r : Observation K) (factors : List ℕ) (combination : List Level) :
    Decidable (r.At factors combination) := inferInstanceAs (Decidable (_ = _))

variable {rows rows' : List (Observation K)} {factors : List ℕ}

theorem columnLevels_congr (h : KeysWithin rows rows') (h' : KeysWithin rows' rows) (f : ℕ) :
    columnLevels rows f = columnLevels rows' f :=
  eq_of_pairwise_of_mem_iff (pairwise_ascending _) (pairwise_ascending _) fun _ =>
    mem_columnLevels.trans (Iff.trans ⟨.mono h, .mono h'⟩ mem_columnLevels.symm)

theorem levelCombinations_congr (h : KeysWithin rows rows') (h' : KeysWithin rows' rows) :
    levelCombinations rows factors = levelCombinations rows' factors :=
  congrArg choices (List.map_congr_left fun f _ => columnLevels_congr h h' f)

variable {names : List String} (hfactors : ∀ f ∈ factors, f < names.length)

include hfactors

/-- The combinations are the levels at the positions along the factors. -/
theorem levelCombinations_eq_map : levelCombinations rows factors =
    (multiIndices (factors.map (rowCoding rows names).levelCount)).map
      (pick (columnLevels rows) factors) := by
  rw [levelCombinations, choices_map]
  exact congrArg (fun shape => (multiIndices shape).map _)
    (List.map_congr_left fun f hf => (levelCount_rowCoding (hfactors f hf)).symm)

/-- A row has the levels at a position exactly when its code has the position. -/
theorem at_pick_iff (hlen : ∀ r ∈ rows, r.levels.length = names.length) (hnodup : factors.Nodup)
    {index : List ℕ} (hindex : InBounds index (factors.map (rowCoding rows names).levelCount))
    {r : Observation K} (hr : r ∈ rows) :
    r.At factors (pick (columnLevels rows) factors index) ↔
      (code rows names r).levelsAt factors = index := by
  obtain ⟨g, hg, rfl⟩ := exists_levels_of_inBounds hnodup hfactors hindex
  have hpick : (factors.map fun f =>
      (columnLevels rows f).getD ((columnLevels rows f).idxOf (g f)) default) = factors.map g := by
    refine List.map_congr_left fun f hf => ?_
    have hmem := mem_columnLevels.mpr (hg f hf)
    rw [List.getD_eq_getElem _ _ (List.idxOf_lt_length_of_mem hmem), List.getElem_idxOf]
  rw [levelsAt_code_eq_iff (hlen r hr) hfactors hg, Observation.At, pick_map, hpick, List.map_map,
    List.map_inj_left]
  rfl

end Rows

end SplitPlot
