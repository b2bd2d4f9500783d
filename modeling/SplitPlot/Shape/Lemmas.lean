import SplitPlot.Shape

/-!
# Positions and their numbers

A position is *in bounds* for a shape when it has one level per axis, each below the extent of
its axis.  The positions in bounds and the numbers below `cellCount shape` name the same cells:

* `flatIndex_lt`, `unravel_flatIndex`: numbering a position in bounds gives a number below the
  cell count, from which `unravel` recovers the position;
* `inBounds_unravel`, `flatIndex_unravel`: conversely every number below the cell count is the
  number of the position it unravels to.

Both directions come down to one splitting of the number: along `n :: s` the leading level is the
quotient by `cellCount s`, and `unravel_add_mul` says that the levels along `s` do not see it.

The odometer moves from each position to the one with the next number (`advance?_eq`), so its
readings are the positions in the order of their numbers (`multiIndices_eq`), each position in
bounds occurs among them, and nothing else does (`mem_multiIndices`).
-/

namespace SplitPlot

/-! ## Positions in bounds -/

/-- A position has one level for each axis, below the extent of the axis. -/
def InBounds : List Nat → List Nat → Prop
  | [], [] => True
  | i :: index, n :: s => i < n ∧ InBounds index s
  | _, _ => False

theorem InBounds.length_eq : ∀ {index shape : List Nat}, InBounds index shape →
    index.length = shape.length
  | [], [], _ => rfl
  | _ :: _, _ :: _, h => congrArg (· + 1) (InBounds.length_eq h.2)

/-! ## From positions to numbers -/

/-- A number that is carried into the numbering is shifted by all the extents that follow. -/
theorem foldl_mul_add (l : List (Nat × Nat)) (k : Nat) :
    l.foldl (fun flat step => flat * step.2 + step.1) k =
      k * cellCount (l.map (·.2)) + l.foldl (fun flat step => flat * step.2 + step.1) 0 := by
  induction l generalizing k with
  | nil => simp
  | cons e l ih =>
    simp only [List.foldl_cons, List.map_cons, cellCount_cons]
    rw [ih (k * e.2 + e.1), ih (0 * e.2 + e.1), Nat.add_mul, Nat.zero_mul, Nat.zero_add,
      Nat.mul_assoc, Nat.add_assoc]

@[simp] theorem flatIndex_nil (s : List Nat) : flatIndex [] s = 0 := rfl

/-- The leading level counts whole blocks of cells, one for each position along the other axes. -/
theorem flatIndex_cons (i n : Nat) {index s : List Nat} (h : InBounds index s) :
    flatIndex (i :: index) (n :: s) = i * cellCount s + flatIndex index s := by
  have hmap : (index.zip s).map (·.2) = s := by
    rw [List.map_snd_zip]
    exact Nat.le_of_eq h.length_eq.symm
  simp only [flatIndex, List.zip_cons_cons, List.foldl_cons, Nat.zero_mul, Nat.zero_add]
  rw [foldl_mul_add, hmap]

/-- A position in bounds has a number below the cell count. -/
theorem flatIndex_lt : ∀ {index shape : List Nat}, InBounds index shape →
    flatIndex index shape < cellCount shape
  | [], [], _ => by simp
  | i :: index, n :: s, h => by
    have hlt := flatIndex_lt h.2
    rw [flatIndex_cons i n h.2, cellCount_cons]
    calc i * cellCount s + flatIndex index s < i * cellCount s + cellCount s := by omega
      _ = (i + 1) * cellCount s := by rw [Nat.add_mul, Nat.one_mul]
      _ ≤ n * cellCount s := Nat.mul_le_mul_right _ h.1

/-! ## From numbers to positions -/

/-- Dividing off the extents one after another divides by their product. -/
theorem snd_peel (shape : List Nat) (flat : Nat) :
    (peel shape flat).2 = flat / cellCount shape := by
  induction shape with
  | nil => simp [peel]
  | cons n s ih => simp only [peel, cellCount_cons]; rw [ih, Nat.div_div_eq_div_mul, Nat.mul_comm n]

@[simp] theorem unravel_cons (n : Nat) (s : List Nat) (flat : Nat) :
    unravel (n :: s) flat = flat / cellCount s % n :: unravel s flat := by
  simp only [unravel, peel, snd_peel]

/-- Whole blocks of cells do not change the position inside a block. -/
theorem unravel_add_mul (s : List Nat) (i flat : Nat) :
    unravel s (i * cellCount s + flat) = unravel s flat := by
  induction s generalizing i with
  | nil => simp
  | cons n s ih =>
    rw [unravel_cons, unravel_cons, cellCount_cons, ← Nat.mul_assoc, ih (i * n)]
    rcases Nat.eq_zero_or_pos (cellCount s) with h0 | hpos
    · simp [h0]
    · rw [Nat.add_comm, Nat.add_mul_div_right _ _ hpos, Nat.add_mul_mod_self_right]

/-- A position in bounds is recovered from its number. -/
theorem unravel_flatIndex : ∀ {index shape : List Nat}, InBounds index shape →
    unravel shape (flatIndex index shape) = index
  | [], [], _ => rfl
  | i :: index, n :: s, h => by
    have hlt := flatIndex_lt h.2
    rw [flatIndex_cons i n h.2, unravel_cons, unravel_add_mul, unravel_flatIndex h.2,
      Nat.add_comm, Nat.add_mul_div_right _ _ (by omega), Nat.div_eq_of_lt hlt, Nat.zero_add,
      Nat.mod_eq_of_lt h.1]

/-- A number below the cell count unravels to a position in bounds. -/
theorem inBounds_unravel : ∀ {shape : List Nat} {flat : Nat}, flat < cellCount shape →
    InBounds (unravel shape flat) shape
  | [], _, _ => trivial
  | n :: s, flat, h => by
    rw [cellCount_cons] at h
    have hpos : 0 < n * cellCount s := by omega
    have hn : 0 < n := Nat.pos_of_mul_pos_right hpos
    have hs : 0 < cellCount s := Nat.pos_of_mul_pos_left hpos
    rw [unravel_cons]
    refine ⟨Nat.mod_lt _ hn, ?_⟩
    have key := unravel_add_mul s (flat / cellCount s) (flat % cellCount s)
    rw [Nat.mul_comm, Nat.div_add_mod] at key
    rw [key]
    exact inBounds_unravel (Nat.mod_lt _ hs)

/-- A number below the cell count is recovered from its position. -/
theorem flatIndex_unravel : ∀ {shape : List Nat} {flat : Nat}, flat < cellCount shape →
    flatIndex (unravel shape flat) shape = flat
  | [], flat, h => by simp at h; simp [h]
  | n :: s, flat, h => by
    have hb := inBounds_unravel h
    rw [cellCount_cons] at h
    have hpos : 0 < n * cellCount s := by omega
    have hs : 0 < cellCount s := Nat.pos_of_mul_pos_left hpos
    rw [unravel_cons] at hb ⊢
    rw [flatIndex_cons _ _ hb.2]
    have key := unravel_add_mul s (flat / cellCount s) (flat % cellCount s)
    rw [Nat.mul_comm, Nat.div_add_mod] at key
    rw [key, flatIndex_unravel (Nat.mod_lt _ hs),
      Nat.mod_eq_of_lt ((Nat.div_lt_iff_lt_mul hs).mpr h), Nat.mul_comm, Nat.div_add_mod]

/-! ## The odometer -/

/-- The cell with number zero is at the zero position. -/
theorem unravel_zero (shape : List Nat) : unravel shape 0 = shape.map fun _ => 0 := by
  induction shape with
  | nil => rfl
  | cons n s ih => simp [ih]

/-- The odometer moves from each position to the one with the next number. -/
theorem advance?_eq : ∀ {shape index : List Nat}, InBounds index shape →
    advance? shape index =
      if flatIndex index shape + 1 < cellCount shape then
        some (unravel shape (flatIndex index shape + 1))
      else none
  | [], [], _ => by simp [advance?]
  | n :: s, i :: index, h => by
    have hlt := flatIndex_lt h.2
    have hi : i < n := h.1
    rw [advance?, advance?_eq h.2, flatIndex_cons i n h.2, cellCount_cons]
    have hmul : (i + 1) * cellCount s ≤ n * cellCount s := Nat.mul_le_mul_right _ hi
    rw [Nat.add_mul, Nat.one_mul] at hmul
    by_cases hroom : flatIndex index s + 1 < cellCount s
    · have hmore : i * cellCount s + flatIndex index s + 1 < n * cellCount s := by omega
      rw [if_pos hroom, if_pos hmore]
      simp only [Nat.add_assoc, unravel_cons, unravel_add_mul]
      rw [Nat.add_comm (i * cellCount s), Nat.add_mul_div_right _ _ (by omega),
        Nat.div_eq_of_lt hroom, Nat.zero_add, Nat.mod_eq_of_lt hi]
    · have hlast : flatIndex index s + 1 = cellCount s := by omega
      have hnext : i * cellCount s + flatIndex index s + 1 = (i + 1) * cellCount s + 0 := by
        rw [Nat.add_assoc, hlast, Nat.add_mul, Nat.one_mul, Nat.add_zero]
      rw [if_neg hroom, hnext]
      by_cases hmore : i + 1 < n
      · have hstep : (i + 1 + 1) * cellCount s ≤ n * cellCount s := Nat.mul_le_mul_right _ hmore
        rw [Nat.add_mul (i + 1), Nat.one_mul] at hstep
        have hlt' : (i + 1) * cellCount s + 0 < n * cellCount s := by omega
        simp only [if_pos hmore]
        rw [if_pos hlt', unravel_cons, unravel_add_mul, unravel_zero,
          Nat.add_zero ((i + 1) * cellCount s), Nat.mul_div_cancel _ (by omega),
          Nat.mod_eq_of_lt hmore]
      · have hend : i + 1 = n := by omega
        simp only [if_neg hmore]
        rw [if_neg (by rw [hend]; omega)]

/-- From the position with number `m` on, the odometer shows consecutive numbers. -/
theorem readings_unravel {shape : List Nat} : ∀ {k m : Nat}, m + k = cellCount shape →
    readings shape k (some (unravel shape m)) = (List.range' m k).map (unravel shape)
  | 0, _, _ => rfl
  | k + 1, m, h => by
    have hm : m < cellCount shape := by omega
    rw [readings, advance?_eq (inBounds_unravel hm), flatIndex_unravel hm, List.range'_succ,
      List.map_cons]
    by_cases hmore : m + 1 < cellCount shape
    · rw [if_pos hmore, readings_unravel (by omega)]
    · have hk : k = 0 := by omega
      rw [if_neg hmore, hk]
      rfl

/-- The odometer shows the positions in the order of their numbers. -/
theorem multiIndices_eq (shape : List Nat) :
    multiIndices shape = (List.range (cellCount shape)).map (unravel shape) := by
  rw [multiIndices, ← unravel_zero, readings_unravel (Nat.zero_add _), List.range_eq_range']

@[simp] theorem length_multiIndices (shape : List Nat) :
    (multiIndices shape).length = cellCount shape := by
  simp [multiIndices_eq]

/-- The odometer shows exactly the positions in bounds. -/
theorem mem_multiIndices {shape index : List Nat} :
    index ∈ multiIndices shape ↔ InBounds index shape := by
  rw [multiIndices_eq, List.mem_map]
  constructor
  · rintro ⟨flat, hflat, rfl⟩
    exact inBounds_unravel (List.mem_range.mp hflat)
  · intro h
    exact ⟨flatIndex index shape, List.mem_range.mpr (flatIndex_lt h), unravel_flatIndex h⟩

end SplitPlot
