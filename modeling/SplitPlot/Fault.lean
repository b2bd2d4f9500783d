import SplitPlot.Source

/-!
# Faults

A fault is a breach of the contract of an operation: an effect asked for before it is known, a
determinant of a matrix that has none.  It is distinct from an unacceptable design, which is a
property of the data and has causes of its own (`SplitPlot.DesignError`), and from a degenerate
statistic, which is a result (`SplitPlot.Degeneracy`).

An analysis of an accepted design meets no fault, except for the limits of a machine, which are
the last two.  The constructors say what each operation relies on, and `Fault.message` holds every
wording.
-/

namespace SplitPlot

/-- A breach of the contract of an operation. -/
inductive Fault where
  /-- A determinant was asked of a matrix that is not square. -/
  | nonSquareDeterminant
  /-- The rows of a score matrix and the cells assigned to them differ in number. -/
  | cellPerSubject
  /-- A source was asked for with a factor that no source can hold. -/
  | factorOutOfRange (factor : Nat)
  /-- The sources of more factors were asked for than a source can hold. -/
  | tooManyFactors
  /-- Contrast scores were asked for on a source with a factor between subjects. -/
  | contrastBetweenSubjects
  /-- The contrast scores of a source are not among those prepared. -/
  | missingScores (source : Source)
  /-- An effect was stored where one was stored already. -/
  | computedTwice (source : Source)
  /-- An effect was asked for that is not stored yet. -/
  | notYetComputed (source : Source)
  /-- A table cannot be stretched to the shape of another. -/
  | incompatibleShapes (given wanted : List Nat)
  /-- A position was looked for along an axis of no extent. -/
  | zeroExtent
  /-- The result of an operation on whole numbers has more than 64 bits. -/
  | overflow (operation : String)
  /-- A recursion does not end. -/
  | endlessRecursion
  deriving DecidableEq

namespace Fault

/-- A shape in brackets. -/
def renderShape (shape : List Nat) : String :=
  "[" ++ ", ".intercalate (shape.map toString) ++ "]"

/-- The wording of a fault. -/
def message : Fault → String
  | .nonSquareDeterminant => "determinant of a non-square matrix"
  | .cellPerSubject => "one cell per subject"
  | .factorOutOfRange f => s!"factor index {f} out of range"
  | .tooManyFactors => s!"at most {Source.maxFactors} factors are supported"
  | .contrastBetweenSubjects => "D-variables need a within-subjects-only source"
  | .missingScores s => s!"no D-variables for within-subjects source {s}"
  | .computedTwice s => s!"effect for source {s} computed twice"
  | .notYetComputed s => s!"effect for source {s} requested before it was computed"
  | .incompatibleShapes given wanted =>
    s!"could not broadcast array from shape: {renderShape given} to: {renderShape wanted}"
  | .zeroExtent => "attempt to calculate the remainder with a divisor of zero"
  | .overflow operation => s!"attempt to {operation} with overflow"
  | .endlessRecursion => "stack overflow"

end Fault

end SplitPlot
