import SplitPlot.Ascending
import SplitPlot.DesignError
import SplitPlot.Mean
import SplitPlot.Settings

/-!
# Observations and the table that holds them

An observation is one measured value: a subject under one level of every factor.  A table takes
observations one at a time and checks the shape of each.  The width of a table is set by the
first row that is offered, whether or not that row is then kept.

## Repeated observations

The key of an observation is its subject followed by its levels.  Observations with one key are
replicates of one another.  `ObservationTable.deduplicate` leaves one observation per key, in
ascending order of the keys, with the mean of the replicates as its value; or, where replicates
are not allowed, it names the first row whose key has occurred before.
-/

namespace SplitPlot

/-- A measured value of a subject under one level of every factor. -/
structure Observation (K : Type) where
  /-- The subject. -/
  subject : Level
  /-- The level of each factor, in the order of the factors. -/
  levels : List Level
  /-- The measured value. -/
  value : K
  deriving DecidableEq

namespace Observation

variable {K : Type}

/-- What replicates have in common: the subject and its levels. -/
def key (o : Observation K) : List Level := o.subject :: o.levels

end Observation

/-- The rows of data, with the number of levels that each of them has to have. -/
structure ObservationTable (K : Type) where
  /-- The number of levels per row, once a row has been offered. -/
  width? : Option Nat := none
  /-- The rows, in the order in which they came. -/
  rows : List (Observation K) := []

namespace ObservationTable

variable {K : Type} [Scalar K]

/-- The table without rows. -/
instance : EmptyCollection (ObservationTable K) := ⟨{}⟩

instance : Inhabited (ObservationTable K) := ⟨∅⟩

/-- The number of factors: the width, or zero before a row has been offered. -/
def factorCount (t : ObservationTable K) : Nat := t.width?.getD 0

/-- The number of rows. -/
def size (t : ObservationTable K) : Nat := t.rows.length

/-- Whether there are no rows. -/
def isEmpty (t : ObservationTable K) : Bool := t.rows.isEmpty

/-- Offers a row to the table: whether it was kept, and the table afterwards. -/
def push (t : ObservationTable K) (o : Observation K) :
    Except DesignError Unit × ObservationTable K :=
  let width := t.width?.getD o.levels.length
  let t := { t with width? := some width }
  if o.levels.length ≠ width then
    (.error (.rowWidthMismatch t.size width o.levels.length), t)
  else if ¬ Scalar.IsFinite o.value then
    (.error (.nonFiniteValue t.size), t)
  else (.ok (), { t with rows := t.rows ++ [o] })

/-- The table of the given rows, or the error of the first that is not kept. -/
def ofRows (rows : List (Observation K)) : Except DesignError (ObservationTable K) :=
  rows.foldlM (fun t o => let offered := t.push o; offered.1.map fun _ => offered.2) ∅

/-! ## Replicates -/

/-- The first row whose key has occurred before, with its number. -/
def firstRepeat? (t : ObservationTable K) : Option (Nat × Observation K) :=
  (t.rows.zipIdx.find? fun r => (t.rows.take r.2).any fun o => o.key == r.1.key).map
    fun r => (r.2, r.1)

/-- The observation that stands for all replicates of a key. -/
def average (t : ObservationTable K) (key : List Level) : Observation K where
  subject := key.headD default
  levels := key.tail
  value := mean ((t.rows.filter fun o => o.key == key).map (·.value))

/-- One observation per key, in ascending order of the keys. -/
def averages (t : ObservationTable K) : List (Observation K) :=
  (ascending (t.rows.map Observation.key)).map t.average

/-- One observation per key, in ascending order of the keys, unless replicates are to be
rejected and there are some. -/
def deduplicate (t : ObservationTable K) (policy : DuplicatePolicy) :
    Except DesignError (List (Observation K)) :=
  match policy with
  | .average => .ok t.averages
  | .reject =>
    match t.firstRepeat? with
    | some (row, o) => .error (.duplicateObservation row o.subject)
    | none => .ok t.averages

end ObservationTable

end SplitPlot
