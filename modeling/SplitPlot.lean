import SplitPlot.Analysis
import SplitPlot.Machine
import SplitPlot.OneWay
import SplitPlot.Grid.Lemmas
import SplitPlot.Mat.Lemmas
import SplitPlot.Proofs.Rows
import SplitPlot.Proofs.Success
import SplitPlot.Proofs.Design.Layout
import SplitPlot.Proofs.Exact
import SplitPlot.Proofs.Design.Accepted
import SplitPlot.Proofs.Design.Decoding
import SplitPlot.Proofs.Decomposition.Scores
import SplitPlot.Proofs.Decomposition.Balanced
import SplitPlot.Proofs.Decomposition.Closure
import SplitPlot.Proofs.SumsOfSquares
import SplitPlot.Proofs.OneWayAgreement
import SplitPlot.Proofs.Totality
import SplitPlot.Proofs.Words
import SplitPlot.Proofs.Machine
import SplitPlot.Proofs.Schedule
import SplitPlot.Proofs.RowOrder
import SplitPlot.Proofs.Decomposition.Interaction
import SplitPlot.Proofs.Relabelling.Affine
import SplitPlot.Proofs.Relabelling.FactorOrder
import SplitPlot.Proofs.Relabelling.Renaming
import SplitPlot.Proofs.Decomposition.ClosedForm
import SplitPlot.Proofs.Decomposition.Combinations
import SplitPlot.Proofs.Decomposition.LeastSquares
import SplitPlot.Proofs.ErrorFree
import SplitPlot.Proofs.Partial.Runs
import SplitPlot.Proofs.Mat.Inverse
import SplitPlot.Proofs.Hotelling
import SplitPlot.Proofs.OneContrast
import SplitPlot.Proofs.Decomposition.Weights
import SplitPlot.Proofs.Decomposition.OwnInteraction
import SplitPlot.Proofs.Decomposition.Orthogonality
import SplitPlot.Proofs.Decomposition.GrandMeans
import SplitPlot.Proofs.DegreesOfFreedom
import SplitPlot.Proofs.Offers
import SplitPlot.Proofs.Replicates
import SplitPlot.Proofs.Normalisation
import SplitPlot.Proofs.Design.Choices
import SplitPlot.Proofs.Design.Culprits
import SplitPlot.Proofs.Summaries
import SplitPlot.Proofs.Requirements
import SplitPlot.Proofs.RaoExponent
import SplitPlot.Proofs.Special.Reflection
import SplitPlot.Proofs.Special.BetaFraction
import SplitPlot.Proofs.Labels
import SplitPlot.Proofs.Memo
import SplitPlot.Proofs.Source.Listed
import SplitPlot.Proofs.Odometer
import SplitPlot.Proofs.Grid.Dropping
import SplitPlot.Proofs.Source.Walk
