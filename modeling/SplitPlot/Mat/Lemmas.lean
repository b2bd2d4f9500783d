import SplitPlot.Mat

/-!
# Reading matrices back

A matrix that was built from a function shows its values inside the two extents (`Mat.get_ofFn`),
and a matrix is determined by what it shows there (`Mat.ext_get`).  The operations are built by
`ofFn`, so the equations `get_add`, `get_sub`, `get_mul` and `get_crossProduct` are all that is
needed of them afterwards.
-/

namespace SplitPlot

namespace Mat

/-- Counted row by row, the entry in row `i` and column `j` has a number below the size. -/
theorem flat_lt {m n i j : Nat} (hi : i < m) (hj : j < n) : i * n + j < m * n :=
  calc i * n + j < i * n + n := Nat.add_lt_add_left hj _
    _ = (i + 1) * n := by rw [Nat.add_mul, Nat.one_mul]
    _ ≤ m * n := Nat.mul_le_mul_right n hi

variable {K : Type} [Scalar K]

/-- A matrix shows the values of the function it was built from. -/
theorem get_ofFn {m n i j : Nat} (f : Nat → Nat → K) (hi : i < m) (hj : j < n) :
    (ofFn m n f).get i j = f i j := by
  have hn : 0 < n := Nat.lt_of_le_of_lt (Nat.zero_le j) hj
  have hrow : (i * n + j) / n = i := by
    rw [Nat.add_comm, Nat.add_mul_div_right _ _ hn, Nat.div_eq_of_lt hj, Nat.zero_add]
  have hcol : (i * n + j) % n = j := by
    rw [Nat.add_comm, Nat.add_mul_mod_self_right, Nat.mod_eq_of_lt hj]
  rw [get, Array.getD_eq_getD_getElem?]
  simp only [ofFn]
  rw [Array.getElem?_ofFn, dif_pos (flat_lt hi hj), Option.getD_some]
  simp only [hrow, hcol]

/-- The entry with a given number stands in the row that the number of columns divides off. -/
theorem getElem_entries (a : Mat K) {flat : Nat} (h : flat < a.entries.size) :
    a.entries[flat] = a.get (flat / a.cols) (flat % a.cols) := by
  rw [get, Nat.mul_comm, Nat.div_add_mod, Array.getD_eq_getD_getElem?,
    Array.getElem?_eq_getElem h, Option.getD_some]

/-- Two matrices of one size that show the same entries are equal. -/
theorem ext_get {a b : Mat K} (hrows : a.rows = b.rows) (hcols : a.cols = b.cols)
    (hget : ∀ i j, i < a.rows → j < a.cols → a.get i j = b.get i j) : a = b := by
  refine Mat.ext hrows hcols (Array.ext ?_ fun flat ha hb => ?_)
  · rw [a.size_entries, b.size_entries, hrows, hcols]
  · have hflat : flat < a.rows * a.cols := a.size_entries ▸ ha
    have hn : 0 < a.cols := Nat.pos_of_mul_pos_left (Nat.lt_of_le_of_lt (Nat.zero_le flat) hflat)
    rw [getElem_entries a ha, getElem_entries b hb, ← hcols]
    exact hget _ _ ((Nat.div_lt_iff_lt_mul hn).mpr hflat) (Nat.mod_lt _ hn)

/-! ## Entries of the operations -/

theorem get_add {a b : Mat K} {i j : Nat} (hi : i < a.rows) (hj : j < a.cols) :
    (a + b).get i j = a.get i j + b.get i j := get_ofFn _ hi hj

/-- Inside its extents a matrix is not changed by stretching. -/
theorem getStretched_eq {a : Mat K} {i j : Nat} (hi : i < a.rows) (hj : j < a.cols) :
    a.getStretched i j = a.get i j := by
  have hrow : (if a.rows = 1 then 0 else i) = i := by
    split
    · omega
    · rfl
  have hcol : (if a.cols = 1 then 0 else j) = j := by
    split
    · omega
    · rfl
  rw [getStretched, hrow, hcol]

theorem rows_sub {a b : Mat K} (hrows : a.rows = b.rows) : (a - b).rows = a.rows := by
  change stretch a.rows b.rows = a.rows
  rw [← hrows, stretch_self]

theorem cols_sub {a b : Mat K} (hcols : a.cols = b.cols) : (a - b).cols = a.cols := by
  change stretch a.cols b.cols = a.cols
  rw [← hcols, stretch_self]

/-- The difference of two matrices of one size is taken entry by entry. -/
theorem get_sub {a b : Mat K} {i j : Nat} (hrows : a.rows = b.rows) (hcols : a.cols = b.cols)
    (hi : i < a.rows) (hj : j < a.cols) : (a - b).get i j = a.get i j - b.get i j := by
  rw [← getStretched_eq hi hj, ← getStretched_eq (a := b) (hrows ▸ hi) (hcols ▸ hj)]
  refine get_ofFn (fun i j => a.getStretched i j - b.getStretched i j) ?_ ?_
  · rwa [← hrows, stretch_self]
  · rwa [← hcols, stretch_self]

/-- An entry of a product is the sum along a row and a column. -/
theorem get_mul {a b : Mat K} {i j : Nat} (hi : i < a.rows) (hj : j < b.cols) :
    (a * b).get i j = total ((List.range a.cols).map fun k => a.get i k * b.get k j) :=
  get_ofFn _ hi hj

theorem get_addRow {a : Mat K} {i j : Nat} (r : List K) (hi : i < a.rows) (hj : j < a.cols) :
    (a.addRow r).get i j = a.get i j + r.getD j 0 := get_ofFn _ hi hj

/-- An entry of the cross products is the sum over the rows. -/
theorem get_crossProduct {a : Mat K} {i j : Nat} (hi : i < a.cols) (hj : j < a.cols) :
    a.crossProduct.get i j = total ((List.range a.rows).map fun k => a.get k i * a.get k j) :=
  get_ofFn _ hi hj

theorem get_identity {n i j : Nat} (hi : i < n) (hj : j < n) :
    (identity n : Mat K).get i j = if i = j then 1 else 0 := get_ofFn _ hi hj

/-- A matrix that was built from rows shows their members. -/
theorem get_ofRows {rows : List (List K)} {i j : Nat} (hi : i < rows.length)
    (hj : j < rows.head?.elim 0 List.length) :
    (ofRows rows).get i j = (rows.getD i []).getD j 0 := get_ofFn _ hi hj

end Mat

end SplitPlot
