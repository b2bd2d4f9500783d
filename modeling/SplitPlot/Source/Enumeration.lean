import SplitPlot.Fault

/-!
# The sources of a design

A design with `k` factors has one source for each set of factors that is not empty: the odd words
from 3 to `2 ^ (k + 1) - 1`, in which order they are listed.

An effect is measured against the effects of its sub-sources, so a source can be evaluated once
all its proper subsets have been.  `dependencyWaves` groups the sources by their number of
factors: a proper subset has fewer factors, so every wave depends on earlier waves only, and the
members of a wave do not depend on one another.
-/

namespace SplitPlot

namespace Source

/-- The source of the given factors, each of which has to be one that a source can hold. -/
def ofFactors (factors : List Nat) : Except Fault Source :=
  match factors.find? fun f => maxFactors ≤ f with
  | some f => .error (.factorOutOfRange f)
  | none => .ok (span factors)

/-- Every source of `k` factors, in ascending order. -/
def all (k : Nat) : List Source :=
  (List.range (Nat.pow 2 k - 1)).map fun i => ofBits (BitVec.ofNat 32 (2 * i + 3))

/-- Every source of `k` factors, in ascending order, if a source can hold that many. -/
def enumerate (k : Nat) : Except Fault (List Source) :=
  if k ≤ maxFactors then .ok (all k) else .error .tooManyFactors

/-- The sources of `k` factors by their number of factors, each group in ascending order. -/
def dependencyWaves (k : Nat) : Except Fault (List (List Source)) := do
  let sources ← enumerate k
  return (List.range k).map fun n => sources.filter fun s => s.factorCount == n + 1

end Source

end SplitPlot
