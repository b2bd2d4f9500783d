import SplitPlot.Mean
import SplitPlot.Ascending
import SplitPlot.Shape

/-!
# Tables with several axes

A `Grid` holds one number for each position of a shape.  The entries are stored in the order of
the position numbers, but the view through which a grid is read and built is that of a function:
`ofFn` makes a grid from a function on positions, and `get` reads it back.

## Reductions

A reduction replaces every line along an axis by one number.  `reduceKeep` leaves the axis behind
with length one, so that the result still lines up with the table it came from; `reduceDrop`
takes the axis away.  `meanKeep` and `harmonicMeanKeep` reduce a list of axes one after another,
the highest first and each only once, whatever order they are listed in.

## Stretching

Two tables of different shape are combined by stretching the smaller one: its axes are aligned
with the last axes of the larger, and along an axis of length one the same entry is read
everywhere.  `stretchesTo` says when that is possible.
-/

namespace SplitPlot

/-- A table of numbers with one axis per member of its shape. -/
@[ext] structure Grid (K : Type) where
  /-- The extent of each axis. -/
  shape : List Nat
  /-- The entries, in the order of the numbers of their positions. -/
  entries : Array K
  /-- There is one entry for each cell of the shape. -/
  size_entries : entries.size = cellCount shape

namespace Grid

variable {K : Type}

/-- The table of a function on positions. -/
def ofFn (shape : List Nat) (f : List Nat → K) : Grid K where
  shape := shape
  entries := Array.ofFn fun i : Fin (cellCount shape) => f (unravel shape i)
  size_entries := Array.size_ofFn

@[simp] theorem shape_ofFn (shape : List Nat) (f : List Nat → K) : (ofFn shape f).shape = shape :=
  rfl

/-- The table with the given entries, if there is one for each cell of the shape. -/
def ofEntries? (shape : List Nat) (entries : Array K) : Option (Grid K) :=
  if h : entries.size = cellCount shape then some ⟨shape, entries, h⟩ else none

variable [Scalar K]

/-- The table without axes holds one number. -/
instance : Inhabited (Grid K) := ⟨ofFn [] fun _ => 0⟩

/-- The entry at a position. -/
def get (g : Grid K) (index : List Nat) : K := g.entries.getD (flatIndex index g.shape) 0

/-- The number of axes. -/
def axes (g : Grid K) : Nat := g.shape.length

/-- The extent of an axis. -/
def extent (g : Grid K) (axis : Nat) : Nat := g.shape.getD axis 0

/-- The entries, in the order of the numbers of their positions. -/
def toList (g : Grid K) : List K := g.entries.toList

/-- The sum of all entries. -/
def sum (g : Grid K) : K := total g.toList

/-! ## Reductions -/

/-- Replaces each line along an axis by one number and keeps the axis with length one. -/
def reduceKeep (f : List K → K) (g : Grid K) (axis : Nat) : Grid K :=
  ofFn (g.shape.set axis 1) fun index =>
    f ((List.range (g.extent axis)).map fun i => g.get (index.set axis i))

/-- Replaces each line along an axis by one number and drops the axis. -/
def reduceDrop (f : List K → K) (g : Grid K) (axis : Nat) : Grid K :=
  ofFn (g.shape.eraseIdx axis) fun index =>
    f ((List.range (g.extent axis)).map fun i => g.get (index.insertIdx axis i))

/-- Reduces each listed axis once, the highest first, and keeps them with length one. -/
def reduceAllKeep (f : List K → K) (g : Grid K) (axes : List Nat) : Grid K :=
  (ascending axes).reverse.foldl (reduceKeep f) g

/-- The arithmetic means over the listed axes, which are kept with length one. -/
def meanKeep (g : Grid K) (axes : List Nat) : Grid K := g.reduceAllKeep mean axes

/-- The harmonic means over the listed axes, which are kept with length one. -/
def harmonicMeanKeep (g : Grid K) (axes : List Nat) : Grid K := g.reduceAllKeep harmonicMean axes

/-- The sums over the listed axes, which are kept with length one. -/
def sumKeep (g : Grid K) (axes : List Nat) : Grid K := g.reduceAllKeep total axes

/-- The arithmetic means over an axis, which is dropped. -/
def meanDrop (g : Grid K) (axis : Nat) : Grid K := g.reduceDrop mean axis

@[simp] theorem shape_reduceKeep (f : List K → K) (g : Grid K) (axis : Nat) :
    (g.reduceKeep f axis).shape = g.shape.set axis 1 := rfl

@[simp] theorem shape_reduceDrop (f : List K → K) (g : Grid K) (axis : Nat) :
    (g.reduceDrop f axis).shape = g.shape.eraseIdx axis := rfl

/-! ## Stretching -/

/-- Whether a table of the given shape can be stretched to the wanted one. -/
def stretchesTo (given wanted : List Nat) : Bool :=
  given.length ≤ wanted.length &&
    (given.zip (wanted.drop (wanted.length - given.length))).all fun e => e.1 == 1 || e.1 == e.2

/-- The entry that a stretched table shows at a position of the larger one. -/
def getStretched (g : Grid K) (index : List Nat) : K :=
  g.get ((g.shape.zip (index.drop (index.length - g.axes))).map fun e =>
    if e.1 = 1 then 0 else e.2)

/-- The difference of a table and one that is stretched to its shape. -/
def subStretched (g h : Grid K) : Except Fault (Grid K) :=
  if stretchesTo h.shape g.shape then
    .ok (ofFn g.shape fun index => g.get index - h.getStretched index)
  else .error (.incompatibleShapes h.shape g.shape)

end Grid

end SplitPlot
