import SplitPlot.Mean

/-!
# Matrices

Score matrices have one row per subject and one column per variable; matrices of sums of squares
and cross products are square.  A `Mat` carries its two extents and its entries row by row, and
like a `Grid` it is built by `ofFn` and read by `get`.

The sums in a product are formed from the left, over the inner index in ascending order.

A difference stretches: a matrix with a single row or a single column shows it along the whole
extent of the other matrix, as a `Grid` does.  Between matrices of one size that is the entrywise
difference.
-/

namespace SplitPlot

/-- A matrix of numbers. -/
@[ext] structure Mat (K : Type) where
  /-- The number of rows. -/
  rows : Nat
  /-- The number of columns. -/
  cols : Nat
  /-- The entries, row by row. -/
  entries : Array K
  /-- There is one entry for each row and column. -/
  size_entries : entries.size = rows * cols

namespace Mat

variable {K : Type}

/-- The matrix of a function on rows and columns. -/
def ofFn (rows cols : Nat) (f : Nat → Nat → K) : Mat K where
  rows := rows
  cols := cols
  entries := Array.ofFn fun i : Fin (rows * cols) => f (i / cols) (i % cols)
  size_entries := Array.size_ofFn

@[simp] theorem rows_ofFn (m n : Nat) (f : Nat → Nat → K) : (ofFn m n f).rows = m := rfl

@[simp] theorem cols_ofFn (m n : Nat) (f : Nat → Nat → K) : (ofFn m n f).cols = n := rfl

/-- The common extent of two matrices along one direction, where an extent of one is stretched. -/
def stretch (m n : Nat) : Nat := if m = 1 then n else m

@[simp] theorem stretch_self (n : Nat) : stretch n n = n := by simp [stretch]

/-- The matrix has as many rows as columns. -/
def IsSquare (a : Mat K) : Prop := a.rows = a.cols

instance (a : Mat K) : Decidable a.IsSquare := inferInstanceAs (Decidable (_ = _))

variable [Scalar K]

/-- The matrix without rows and columns. -/
instance : Inhabited (Mat K) := ⟨ofFn 0 0 fun _ _ => 0⟩

/-- The entry in a row and a column. -/
def get (a : Mat K) (i j : Nat) : K := a.entries.getD (i * a.cols + j) 0

/-- The entry that a matrix shows in a row and a column when its extents of one are stretched. -/
def getStretched (a : Mat K) (i j : Nat) : K :=
  a.get (if a.rows = 1 then 0 else i) (if a.cols = 1 then 0 else j)

/-- The matrix with the given rows, whose common length is the number of columns. -/
def ofRows (rows : List (List K)) : Mat K :=
  ofFn rows.length (rows.head?.elim 0 List.length) fun i j => (rows.getD i []).getD j 0

/-- A row as a list. -/
def row (a : Mat K) (i : Nat) : List K := (List.range a.cols).map fun j => a.get i j

/-- A column as a list. -/
def col (a : Mat K) (j : Nat) : List K := (List.range a.rows).map fun i => a.get i j

/-- The rows as lists. -/
def toRows (a : Mat K) : List (List K) := (List.range a.rows).map a.row

/-- The entries on the diagonal. -/
def diagonal (a : Mat K) : List K := (List.range a.rows).map fun i => a.get i i

/-- The sum of the diagonal. -/
def trace (a : Mat K) : K := total a.diagonal

/-- The unit matrix. -/
def identity (n : Nat) : Mat K := ofFn n n fun i j => if i = j then 1 else 0

/-- The entrywise sum of two matrices of one size. -/
def add (a b : Mat K) : Mat K := ofFn a.rows a.cols fun i j => a.get i j + b.get i j

/-- The entrywise difference.  An extent of one is stretched to that of the other matrix. -/
def sub (a b : Mat K) : Mat K :=
  ofFn (stretch a.rows b.rows) (stretch a.cols b.cols) fun i j =>
    a.getStretched i j - b.getStretched i j

/-- The matrix product. -/
def mul (a b : Mat K) : Mat K :=
  ofFn a.rows b.cols fun i j => total ((List.range a.cols).map fun k => a.get i k * b.get k j)

/-- Adds one row to every row. -/
def addRow (a : Mat K) (r : List K) : Mat K :=
  ofFn a.rows a.cols fun i j => a.get i j + r.getD j 0

/-- The sums of squares and cross products of the columns.  For the residuals of a model this is
its error matrix. -/
def crossProduct (a : Mat K) : Mat K :=
  ofFn a.cols a.cols fun i j => total ((List.range a.rows).map fun k => a.get k i * a.get k j)

instance : Add (Mat K) := ⟨add⟩

instance : Sub (Mat K) := ⟨sub⟩

instance : Mul (Mat K) := ⟨mul⟩

theorem isSquare_crossProduct (a : Mat K) : a.crossProduct.IsSquare := rfl

theorem isSquare_add {a : Mat K} (h : a.IsSquare) (b : Mat K) : (a + b).IsSquare := h

end Mat

end SplitPlot
