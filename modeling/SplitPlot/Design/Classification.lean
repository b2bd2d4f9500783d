import SplitPlot.Design
import SplitPlot.Polynomial

/-!
# Classifying a design

Which factors vary within subjects is not told to the analysis; it is read off the data.

## The reference slice

To classify a factor, all other factors are held at their first level.  In the rows that remain
only the factor itself and the subject vary, so a subject that occurs in two of them has been
measured at two levels of the factor.  Since replicates have been averaged beforehand, that is
the case exactly when the slice has fewer subjects than rows.

## What makes a design acceptable

One slice decides the kind of a factor, so the other rows have to be checked against the
decision.  A subject must stand at one level of each factor between subjects, in all its rows.
Every combination of levels of these factors must have a subject.  And every subject must have a
row in every cell of the factors within subjects; as no two of its rows share a cell by then, it
is enough to count them.

A table of a few rows can have more such combinations than can be listed.  They are looked at one by
one, up to the first without a subject, and their number has no bound.  A machine that counts all of
them in a word, or reserves a mark for each, ends at this point where they are too many.  That is
left out here, as no design has so many: each of its combinations has a subject.
-/

namespace SplitPlot

variable {K : Type}

/-! ## Levels and kinds -/

/-- The distinct levels in a column, in ascending order. -/
def columnLevels (rows : List (Observation K)) (f : Nat) : List Level :=
  ascending (rows.filterMap fun r => r.levels[f]?)

/-- The rows in which every factor other than `f` is at its first level. -/
def referenceSlice (rows : List (Observation K)) (levels : List (List Level)) (f : Nat) :
    List (Observation K) :=
  rows.filter fun r =>
    (r.levels.zip levels).zipIdx.all fun e => e.2 == f || e.1.2.head? == some e.1.1

/-- Whether a subject occurs twice in the reference slice of factor `f`. -/
def variesWithin (rows : List (Observation K)) (levels : List (List Level)) (f : Nat) : Bool :=
  let slice := referenceSlice rows levels f
  (ascending (slice.map (·.subject))).length < slice.length

/-- The factor in column `f`, unless it varies within subjects and has too many levels. -/
def classifyFactor (rows : List (Observation K)) (levels : List (List Level))
    (named : String × Nat) : Except DesignError Factor :=
  let own := levels.getD named.2 []
  let within := variesWithin rows levels named.2
  if within ∧ maxWithinLevels < own.length then
    .error (.tooManyWithinLevels named.1 own.length maxWithinLevels)
  else .ok ⟨named.1, own, within⟩

/-- The factors of the rows, in the order of the columns. -/
def classifyFactors (rows : List (Observation K)) (names : List String) :
    Except DesignError (List Factor) :=
  let levels := (List.range names.length).map (columnLevels rows)
  names.zipIdx.mapM (classifyFactor rows levels)

/-- Replaces the subject and the levels of a row by their places. -/
def encode (factors : List Factor) (subjects : List Level) (o : Observation K) :
    CodedObservation K where
  subject := subjects.idxOf o.subject
  levels := (o.levels.zip factors).map fun e => e.2.levels.idxOf e.1
  value := o.value

namespace Coding

variable (c : Coding K)

/-! ## Cells between subjects -/

/-- The levels of the factors between subjects at which a subject was first observed. -/
def placement (s : Nat) : List Nat :=
  ((c.observations.find? fun o => o.subject == s).map (·.levelsAt c.betweenFactors)).getD []

/-- The first observation that puts a subject at another level of a factor between subjects than
before, as the places of the subject and of the factor among those between subjects. -/
def straddling? : Option (Nat × Nat) :=
  c.observations.findSome? fun o =>
    (((c.placement o.subject).zip (o.levelsAt c.betweenFactors)).findIdx? fun e => e.1 != e.2).map
      fun axis => (o.subject, axis)

/-- The number of the cell between subjects of each subject. -/
def cells : List Nat :=
  (List.range c.subjectCount).map fun s => flatIndex (c.placement s) c.betweenShape

/-- The first combination of levels of the factors between subjects without a subject. -/
def deserted? : Option (List Nat) :=
  let shape := c.betweenShape
  let cells := c.cells
  findIndex? shape fun index => !cells.contains (flatIndex index shape)

/-- The levels at a position of the cells between subjects. -/
def combination (index : List Nat) : List Level :=
  (index.zip c.betweenFactors).map fun e => (c.factor e.2).levels.getD e.1 default

/-- The number of observations of a subject. -/
def observed (s : Nat) : Nat := c.observations.countP fun o => o.subject == s

/-- The first subject with fewer observations than there are cells within subjects. -/
def incomplete? : Option Nat :=
  (List.range c.subjectCount).find? fun s => c.observed s < c.withinCellCount

/-! ## Scores -/

variable [Scalar K]

/-- The observation of a subject in a cell of the factors within subjects. -/
def score (s : Nat) (index : List Nat) : K :=
  ((c.observations.find? fun o => o.subject == s && o.levelsAt c.withinFactors == index).map
    (·.value)).getD 0

/-- One score for each subject and cell of the factors within subjects. -/
def scoreTable : Grid K :=
  .ofFn (c.subjectCount :: c.withinShape) fun
    | s :: index => c.score s index
    | [] => 0

/-- The design of the coded table, if every subject stands in one cell, every cell has a subject
and every subject is observed everywhere. -/
def complete : Except DesignError (Design K) :=
  match c.straddling? with
  | some (s, axis) =>
    .error (.subjectInMultipleGroups (c.subjects.getD s default)
      (c.factor (c.betweenFactors.getD axis 0)).name)
  | none =>
    match c.deserted? with
    | some index => .error (.emptyBetweenCell (Level.renderCombination (c.combination index)))
    | none =>
      match c.incomplete? with
      | some s =>
        .error (.incompleteRepeatedMeasures (c.subjects.getD s default)
          (c.withinCellCount - c.observed s))
      | none => .ok { c with subjectCells := c.cells, scores := c.scoreTable }

end Coding

namespace Design

variable [Scalar K]

/-- The names of the factors of a table, if it has rows, a number of factors that a source can
hold, and as many names. -/
def factorNames? (t : ObservationTable K) (settings : Settings) :
    Except DesignError (List String) :=
  let k := t.factorCount
  let names := settings.resolveNames k
  if t.isEmpty then .error .emptyTable
  else if k = 0 then .error .noFactors
  else if Source.maxFactors < k then .error (.tooManyFactors k Source.maxFactors)
  else if names.length ≠ k then .error (.factorNameCount k names.length)
  else .ok names

/-- The design of a table of observations, if it is acceptable. -/
def ofTable (t : ObservationTable K) (settings : Settings) : Except DesignError (Design K) := do
  let names ← factorNames? t settings
  let rows ← t.deduplicate settings.duplicates
  let factors ← classifyFactors rows names
  let subjects := ascending (rows.map (·.subject))
  let coding : Coding K := ⟨factors, subjects, rows.map (encode factors subjects)⟩
  coding.complete

end Design

end SplitPlot
