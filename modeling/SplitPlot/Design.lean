import SplitPlot.Grid
import SplitPlot.Observation
import SplitPlot.Source

/-!
# Factorial designs

A design is a table of observations that has been understood: which factors there are and at how
many levels, which of them vary within subjects, where each subject stands, and one score for
every subject in every cell of the factors within subjects.

## Two groups of axes

The factors fall into those between subjects and those within.  Each group has a numbering of its
own: tables of cell statistics have one axis per factor between subjects, the table of scores one
axis for the subjects and then one per factor within.  `betweenAxes` and `withinAxes` translate a
source into the axes of its group; the two numberings never mix.

## Codes

`Coding` is a table read as codes: subjects and levels are replaced by their places in ascending
lists.  `Design` adds what is only known to exist once the design has been accepted: the cell of
each subject and the complete table of scores.
-/

namespace SplitPlot

/-- A factor of a design. -/
structure Factor where
  /-- The name of the factor. -/
  name : String
  /-- The levels that occur, in ascending order. -/
  levels : List Level
  /-- Whether the factor varies within subjects. -/
  within : Bool
  deriving DecidableEq

namespace Factor

instance : Inhabited Factor := ⟨⟨"", [], false⟩⟩

/-- The number of levels. -/
def levelCount (f : Factor) : Nat := f.levels.length

end Factor

/-- An observation with its subject and levels replaced by their places in the design. -/
structure CodedObservation (K : Type) where
  /-- The place of the subject among all subjects. -/
  subject : Nat
  /-- The place of each level among the levels of its factor. -/
  levels : List Nat
  /-- The measured value. -/
  value : K
  deriving DecidableEq

namespace CodedObservation

variable {K : Type}

/-- The levels of the listed factors. -/
def levelsAt (o : CodedObservation K) (factors : List Nat) : List Nat :=
  factors.map fun f => o.levels.getD f 0

end CodedObservation

/-- A table of observations, one for each subject and combination of levels, read as codes. -/
structure Coding (K : Type) where
  /-- The factors, in the order of the columns. -/
  factors : List Factor
  /-- The subjects, in ascending order. -/
  subjects : List Level
  /-- The observations, in ascending order of subject and levels. -/
  observations : List (CodedObservation K)

namespace Coding

variable {K : Type} (c : Coding K)

/-- The number of factors. -/
def factorCount : Nat := c.factors.length

/-- The number of subjects. -/
def subjectCount : Nat := c.subjects.length

/-- The names of the factors. -/
def factorNames : List String := c.factors.map (·.name)

/-- A factor by its number. -/
def factor (f : Nat) : Factor := c.factors.getD f default

/-- The number of levels of a factor. -/
def levelCount (f : Nat) : Nat := (c.factor f).levelCount

/-- The factors between subjects, in ascending order. -/
def betweenFactors : List Nat := (List.range c.factorCount).filter fun f => !(c.factor f).within

/-- The factors within subjects, in ascending order. -/
def withinFactors : List Nat := (List.range c.factorCount).filter fun f => (c.factor f).within

/-- The source of all factors between subjects. -/
def betweenMask : Source := .span c.betweenFactors

/-- The source of all factors within subjects. -/
def withinMask : Source := .span c.withinFactors

/-- The source of all factors. -/
def fullSource : Source := .span (List.range c.factorCount)

/-- The places in a list of factors of those that belong to a source. -/
def axesOf (factors : List Nat) (s : Source) : List Nat :=
  (factors.zipIdx.filter fun f => s.contains f.1).map (·.2)

/-- The axes of the tables of cells that belong to a source. -/
def betweenAxes (s : Source) : List Nat := axesOf c.betweenFactors s

/-- The axes of the factors within subjects that belong to a source. -/
def withinAxes (s : Source) : List Nat := axesOf c.withinFactors s

/-- The numbers of levels of the factors between subjects. -/
def betweenShape : List Nat := c.betweenFactors.map c.levelCount

/-- The numbers of levels of the factors within subjects. -/
def withinShape : List Nat := c.withinFactors.map c.levelCount

/-- The number of combinations of levels of the factors between subjects. -/
def betweenCellCount : Nat := cellCount c.betweenShape

/-- The number of combinations of levels of the factors within subjects. -/
def withinCellCount : Nat := cellCount c.withinShape

/-- How a source divides between the two groups of factors. -/
def kindOf (s : Source) : Source.Kind := s.kind c.withinMask

end Coding

/-- An accepted design. -/
structure Design (K : Type) extends Coding K where
  /-- The number of the cell between subjects in which each subject stands. -/
  subjectCells : List Nat
  /-- The score of each subject in each cell of the factors within subjects. -/
  scores : Grid K

end SplitPlot
