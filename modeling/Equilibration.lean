import Equilibration.Balancing
import Equilibration.Binary.Format
import Equilibration.Checked
import Equilibration.Decimal.Digits
import Equilibration.Decimal.Reading
import Equilibration.Decimal.Scientific
import Equilibration.Decimal.Shortest
import Equilibration.Json.Token
import Equilibration.Json.Value
import Equilibration.MatrixInput
import Equilibration.NormPolicy
import Equilibration.Operator
import Equilibration.Options.Basic
import Equilibration.Options.Choices
import Equilibration.Options.Json
import Equilibration.Outlet
import Equilibration.PackedSigns
import Equilibration.PairedMatrix
import Equilibration.Proofs.BalancingRanges
import Equilibration.Proofs.BalancingReports
import Equilibration.Proofs.Building
import Equilibration.Proofs.Cancellation
import Equilibration.Proofs.CheckedLoops
import Equilibration.Proofs.ClearStarts
import Equilibration.Proofs.Comparisons
import Equilibration.Proofs.CompressedForms
import Equilibration.Proofs.CountingSort
import Equilibration.Proofs.DenseProducts
import Equilibration.Proofs.DiagonalScaling
import Equilibration.Proofs.EntryMaps
import Equilibration.Proofs.EntryRanges
import Equilibration.Proofs.ExactArithmetic
import Equilibration.Proofs.ExactBalancing
import Equilibration.Proofs.ExactNorms
import Equilibration.Proofs.ExactResults
import Equilibration.Proofs.ExactScalings
import Equilibration.Proofs.Extrema
import Equilibration.Proofs.FactorSigns
import Equilibration.Proofs.FailingProducts
import Equilibration.Proofs.FloatingPoint
import Equilibration.Proofs.Iterations
import Equilibration.Proofs.JsonTexts
import Equilibration.Proofs.JsonTokens
import Equilibration.Proofs.JsonValues
import Equilibration.Proofs.Kernels
import Equilibration.Proofs.LevelledRows
import Equilibration.Proofs.Lifecycle
import Equilibration.Proofs.LostColumns
import Equilibration.Proofs.LostStarts
import Equilibration.Proofs.NearestNumbers
import Equilibration.Proofs.NearestOperations
import Equilibration.Proofs.Negation
import Equilibration.Proofs.NormRanges
import Equilibration.Proofs.OrderConversion
import Equilibration.Proofs.Orientation
import Equilibration.Proofs.Overwriting
import Equilibration.Proofs.Packing
import Equilibration.Proofs.PaddedRuns
import Equilibration.Proofs.PairwiseSums
import Equilibration.Proofs.PartialOptions
import Equilibration.Proofs.PerturbedIteration
import Equilibration.Proofs.PowerIteration
import Equilibration.Proofs.PowersApart
import Equilibration.Proofs.PrintedReports
import Equilibration.Proofs.ProductErrors
import Equilibration.Proofs.Products
import Equilibration.Proofs.Progress
import Equilibration.Proofs.RangeEnds
import Equilibration.Proofs.Ranges
import Equilibration.Proofs.ReadNumbers
import Equilibration.Proofs.Reconstruction
import Equilibration.Proofs.RelativeErrors
import Equilibration.Proofs.ReportNumbers
import Equilibration.Proofs.Rereading
import Equilibration.Proofs.Rescaling
import Equilibration.Proofs.RoundedOperations
import Equilibration.Proofs.Rounding
import Equilibration.Proofs.SavedOptions
import Equilibration.Proofs.Schedules
import Equilibration.Proofs.Sessions
import Equilibration.Proofs.ShortestDecimals
import Equilibration.Proofs.SignCodec
import Equilibration.Proofs.SignFlips
import Equilibration.Proofs.SignedResults
import Equilibration.Proofs.SinglePrecision
import Equilibration.Proofs.Slices
import Equilibration.Proofs.SoundOptions
import Equilibration.Proofs.SquareCodec
import Equilibration.Proofs.StatefulRuns
import Equilibration.Proofs.StoredNumbers
import Equilibration.Proofs.StrayIndices
import Equilibration.Proofs.TimeAccounts
import Equilibration.Proofs.TokenScanning
import Equilibration.Proofs.Transpose
import Equilibration.Proofs.Unoriented
import Equilibration.Proofs.UsableScalings
import Equilibration.Proofs.VectorRanges
import Equilibration.Proofs.WorkItems
import Equilibration.Proofs.WrittenNumbers
import Equilibration.Proofs.ZeroLines
import Equilibration.Proofs.ZeroProducts
import Equilibration.Ratio
import Equilibration.Report
import Equilibration.Scalar
import Equilibration.Sliced.Basic
import Equilibration.Sliced.Conversion
import Equilibration.Sliced.Product
import Equilibration.Sliced.Scaling
import Equilibration.Sliced.Wellformed
import Equilibration.SolverMatrix.Basic
import Equilibration.SolverMatrix.Product
import Equilibration.SolverMatrix.Rescaling
import Equilibration.SpectralNorm
import Equilibration.Stopwatches
import Equilibration.StorageOrder
import Equilibration.Vec
import Equilibration.World
