/-!
# Settings of an analysis

What an analysis can be told besides its data.  Every setting has a default, so a value of
`Settings` is written by naming what differs.
-/

namespace SplitPlot

/-- What becomes of several observations of one subject in one cell. -/
inductive DuplicatePolicy where
  /-- They are averaged into one score. -/
  | average
  /-- They make the design unacceptable. -/
  | reject
  deriving DecidableEq, Repr

/-- The approximation by which a Wilks' Lambda is tested. -/
inductive LambdaTest where
  /-- Rao's F; the probability is that of the F distribution. -/
  | rao
  /-- Bartlett's chi-square; the probability is that of the chi-square distribution, and Rao's F
  is reported beside it. -/
  | bartlett
  deriving DecidableEq, Repr

/-- The settings of an analysis. -/
structure Settings where
  /-- The names of the factors, in the order of the columns; letters if there are none. -/
  factorNames : Option (List String) := none
  /-- What becomes of repeated observations. -/
  duplicates : DuplicatePolicy := .average
  /-- The test for sources with factors of both kinds. -/
  lambdaTest : LambdaTest := .rao
  /-- Whether sources that do not depend on one another may be evaluated side by side.  The
  outcome is the same either way. -/
  parallel : Bool := true
  /-- Whether the cells of every source are described. -/
  cellSummaries : Bool := true
  deriving DecidableEq, Repr

namespace Settings

instance : Inhabited Settings := ⟨{}⟩

/-- The name of a factor that was given none: the letters of the alphabet, then numbers. -/
def defaultName (f : Nat) : String :=
  if f < 26 then String.singleton (Char.ofNat ('A'.toNat + f)) else s!"F{f + 1}"

/-- The names of the factors of a design with `k` of them.  Configured names are taken as they
are, whatever their number. -/
def resolveNames (s : Settings) (k : Nat) : List String :=
  s.factorNames.getD ((List.range k).map defaultName)

example : ({} : Settings).resolveNames 3 = ["A", "B", "C"] := by decide

end Settings

end SplitPlot
