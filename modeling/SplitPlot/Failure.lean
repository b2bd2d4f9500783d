import SplitPlot.DesignError
import SplitPlot.Fault

/-!
# Failures

An operation that takes a table all the way to a result can fail in two ways: the table is no
acceptable design, or the contract of one of the steps is broken.  `Failure` keeps the two apart.
Of an analysis of a table only the first ever happens, as long as no limit of a machine is met.
-/

namespace SplitPlot

/-- Why an operation that starts from a table has no result. -/
inductive Failure where
  /-- The table is no acceptable design. -/
  | design (error : DesignError)
  /-- The contract of a step is broken. -/
  | fault (fault : Fault)
  deriving DecidableEq

namespace Failure

/-- The wording of a failure. -/
def message : Failure → String
  | .design e => e.message
  | .fault f => f.message

/-- A result that can be kept from by a design error only. -/
def ofDesign {α : Type} (r : Except DesignError α) : Except Failure α := r.mapError .design

/-- A result that can be kept from by a fault only. -/
def ofFault {α : Type} (r : Except Fault α) : Except Failure α := r.mapError .fault

end Failure

end SplitPlot
