import SplitPlot.Level

/-!
# Unacceptable designs

Every cause for which a table cannot be analysed as a factorial experiment with factors between
and within subjects.  A numerical degeneracy --- no error variance, a singular error matrix ---
is not among them: it is reported with the statistic that it concerns.
-/

namespace SplitPlot

/-- Why a table is not an acceptable design. -/
inductive DesignError where
  /-- The table holds no rows. -/
  | emptyTable
  /-- The rows carry no factor. -/
  | noFactors
  /-- There are more factors than a source can hold. -/
  | tooManyFactors (factors max : Nat)
  /-- A row has a different number of levels than the first one. -/
  | rowWidthMismatch (row expected actual : Nat)
  /-- A measured value is not finite. -/
  | nonFiniteValue (row : Nat)
  /-- The number of configured names is not the number of factors. -/
  | factorNameCount (expected actual : Nat)
  /-- A factor has no levels. -/
  | emptyFactor (factor : String)
  /-- A factor within subjects has more levels than there are contrasts for. -/
  | tooManyWithinLevels (factor : String) (levels max : Nat)
  /-- A subject was observed twice in one cell. -/
  | duplicateObservation (row : Nat) (subject : Level)
  /-- A subject appears at several levels of a factor between subjects. -/
  | subjectInMultipleGroups (subject : Level) (factor : String)
  /-- A subject lacks observations in some cells of the factors within subjects. -/
  | incompleteRepeatedMeasures (subject : Level) (missing : Nat)
  /-- A combination of levels of the factors between subjects has no subjects. -/
  | emptyBetweenCell (cell : String)
  deriving DecidableEq

namespace DesignError

/-- The wording of an error. -/
def message : DesignError → String
  | .emptyTable => "observation table is empty"
  | .noFactors => "design has no factors (at least 1 is required)"
  | .tooManyFactors factors max =>
    s!"design has {factors} factors, at most {max} are supported"
  | .rowWidthMismatch row expected actual =>
    s!"row {row} has {actual} factor levels, expected {expected}"
  | .nonFiniteValue row => s!"row {row} has a non-finite measured value"
  | .factorNameCount expected actual =>
    s!"{actual} factor names given for a design with {expected} factors"
  | .emptyFactor factor => s!"factor {factor} has zero levels"
  | .tooManyWithinLevels factor levels max =>
    s!"within-subjects factor {factor} has {levels} levels, at most {max} are supported"
  | .duplicateObservation row subject =>
    s!"row {row} repeats an observation of subject {subject} in the same cell"
  | .subjectInMultipleGroups subject factor =>
    s!"subject {subject} appears at several levels of between-subjects factor {factor}"
  | .incompleteRepeatedMeasures subject missing =>
    s!"subject {subject} is missing {missing} within-subjects cell(s)"
  | .emptyBetweenCell cell => s!"between-subjects cell {cell} has no subjects"

/-- Whether an error speaks of the data rather than of a defect of the analysis.  All of them
do. -/
def isInvalidDesign (_ : DesignError) : Bool := true

end DesignError

end SplitPlot
