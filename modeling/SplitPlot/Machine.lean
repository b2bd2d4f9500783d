import SplitPlot.Analysis

/-!
# The analysis on a machine

`anova` computes with whole numbers of any size, and where the evaluation of a probability would not
end it leaves the probability out.  A machine can do neither.  Its whole numbers have 64 bits, and
the squared weights of a combination of contrasts are added up in one of them.  It also has no table
to return before every probability in the table is there.

`anovaOnMachine` is the analysis under both limits.  An operation whose result has more than 64 bits
is at fault, and so is an evaluation that does not end, since each flip takes up a part of the
stack.  Otherwise the table is that of `anova`.

## What is left out

A machine that does not look at the size of its results goes on with a wrong norm where this one is
at fault.

A machine also counts the cells of a design in a word, and reserves a place for each of them, before
it looks whether the cells have subjects and scores.  Where the cells are too many for it, it ends
while the design is still being built.  Here the cells are looked at one by one and none is
reserved, so such a table is refused, for a cell without a subject or for a subject without a score.
A table that is a design is not concerned, since it has a row for each cell.  Memory has no bound.
-/

namespace SplitPlot

/-! ## Whole numbers of 64 bits -/

/-- The result of an operation on whole numbers, if 64 bits hold it with its sign. -/
def inWord (operation : String) (n : Int) : Except Fault Int :=
  if Int64.minValue.toInt ≤ n ∧ n ≤ Int64.maxValue.toInt then .ok n
  else .error (.overflow operation)

/-- The product of a number and a list of numbers, multiplied up in 64 bits. -/
def wordProduct (start : Int) (factors : List Int) : Except Fault Int :=
  factors.foldlM (fun product factor => inWord "multiply" (product * factor)) start

/-- The weight of a cell in a combination of contrasts, in 64 bits. -/
def wordWeight (levels combination cell : List Nat) : Except Fault Int :=
  wordProduct 1 (((combination.zip cell).zip levels).map fun e => levelWeight e.2 e.1.1 e.1.2)

/-- The sum of the squared weights of a combination of contrasts, in 64 bits. -/
def wordNorm (levels combination : List Nat) : Except Fault Int :=
  (multiIndices levels).foldlM (fun sum cell => do
    let weight ← wordWeight levels combination cell
    let square ← inWord "multiply" (weight * weight)
    inWord "add" (sum + square)) 0

/-! ## The analysis -/

variable {K : Type} [Scalar K]

/-- The numbers of levels of the factors of a source within subjects. -/
def Design.levelsWithin (d : Design K) (s : Source) : List Nat :=
  (d.withinAxes s).map fun a => d.withinShape.getD a 0

/-- The sum of the squared weights of each combination of contrasts of a source has to fit in 64
bits. -/
def Design.checkNorms (d : Design K) (s : Source) : Except Fault Unit :=
  let levels := d.levelsWithin s
  forM (multiIndices (contrastShape levels)) fun combination =>
    (wordNorm levels combination).map fun _ => ()

/-- The sums behind the scores that are prepared have to fit in 64 bits. -/
def Analysis.checkNorms (a : Analysis K) : Except Fault Unit :=
  forM a.scores fun scores => a.design.checkNorms scores.source

/-- Every probability has to be there. -/
def AnovaTable.checkProbabilities (t : AnovaTable K) : Except Fault Unit :=
  forM t.results fun r => if r.test.p.isSome then .ok () else .error .endlessRecursion

/-- The analysis of variance of a table of observations on a machine. -/
def anovaOnMachine (t : ObservationTable K) (settings : Settings) :
    Except Failure (AnovaTable K) := do
  let a ← Analysis.ofTable t settings
  Failure.ofFault a.checkNorms
  let table ← Failure.ofFault a.run
  Failure.ofFault table.checkProbabilities
  return table

end SplitPlot
