import SplitPlot.Tail

/-!
# One-way analysis of groups of scores

The classical analysis of variance of independent groups, from raw sums: the sum of squares
between the groups is formed from their totals, that of all scores from the scores, both less the
correction `total² / n`, and the sum of squares within the groups is what is left.  It shares
nothing with the analysis of designs except the tail of the F distribution, so that agreement of
the two on designs with one factor between subjects is a statement about both.
-/

namespace SplitPlot

variable {K : Type} [Scalar K]

/-- The result of a one-way analysis. -/
structure OneWay (K : Type) where
  /-- The F statistic, or zero if the scores do not vary within the groups. -/
  f : K
  /-- The probability that F exceeds `f`, unless its evaluation does not end. -/
  p : Option K
  /-- The degrees of freedom between groups. -/
  dfBetween : Nat
  /-- The degrees of freedom within groups. -/
  dfWithin : Nat

namespace OneWay

/-- What the squared total contributes to each raw sum of squares. -/
def correction (groups : List (List K)) : K :=
  let sum := total groups.flatten
  sum * sum / (groups.flatten.length : K)

/-- The sum of squares of all scores about their mean. -/
def ssTotal (groups : List (List K)) : K :=
  total (groups.flatten.map fun v => v * v) - correction groups

/-- The sum of squares of the group means about the mean of all scores. -/
def ssBetween (groups : List (List K)) : K :=
  total (groups.map fun g => total g * total g / (g.length : K)) - correction groups

/-- The sum of squares of the scores about their group means. -/
def ssWithin (groups : List (List K)) : K := ssTotal groups - ssBetween groups

/-- The one-way analysis of at least two groups, none of them empty, that hold more scores than
there are groups. -/
def ofGroups? (groups : List (List K)) : Option (OneWay K) :=
  let k := groups.length
  let n := groups.flatten.length
  if k < 2 ∨ n ≤ k ∨ groups.any List.isEmpty then none
  else
    let msBetween := ssBetween groups / ((k - 1 : Nat) : K)
    let msWithin := ssWithin groups / ((n - k : Nat) : K)
    let f := if 0 < msWithin then msBetween / msWithin else 0
    some ⟨f, fTail ((k - 1 : Nat) : K) ((n - k : Nat) : K) f, k - 1, n - k⟩

end OneWay

/-- The F statistic of a comparison of two models, from their error sums of squares and their
error degrees of freedom. -/
def modelComparisonF (restricted full dfRestricted dfFull : K) : K :=
  ((restricted - full) / (dfRestricted - dfFull)) / (full / dfFull)

end SplitPlot
