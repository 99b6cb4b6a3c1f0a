import RunningStats.Checkpoint.Resume
import RunningStats.Sample.Estimators
import RunningStats.Sample.Load
import RunningStats.Interval.Report
import RunningStats.Summary.Confidence
import RunningStats.Summary.Report
import RunningStats.Summary.Session
import RunningStats.Proofs.Holdings
import RunningStats.Proofs.Binary.Order
import RunningStats.Proofs.Extremes
import RunningStats.Proofs.Exact.Scalar
import RunningStats.Proofs.Exact.Sum
import RunningStats.Proofs.Exact.Moments
import RunningStats.Proofs.Exact.Stream
import RunningStats.Proofs.Exact.TwoPass
import RunningStats.Proofs.Exact.Batch
import RunningStats.Proofs.Exact.Merging
import RunningStats.Proofs.Exact.Parallel
import RunningStats.Proofs.Exact.Queries
import RunningStats.Proofs.Exact.Range
import RunningStats.Proofs.Exact.Shape
import RunningStats.Proofs.Binary.Fields
import RunningStats.Proofs.Binary.Rounding
import RunningStats.Proofs.Binary.Arithmetic
import RunningStats.Proofs.Binary.Weightless
import RunningStats.Proofs.Answers
import RunningStats.Proofs.Binary.Nearest
import RunningStats.Proofs.Binary.Value
import RunningStats.Proofs.Binary.Operations
import RunningStats.Proofs.Binary.Sign
import RunningStats.Proofs.Binary.Numbers
import RunningStats.Proofs.Binary.Location
import RunningStats.Proofs.Binary.Compensation
import RunningStats.Proofs.Binary.Growth
import RunningStats.Proofs.Binary.Defined
import RunningStats.Proofs.Counting
import RunningStats.Proofs.Exact.Checked
import RunningStats.Proofs.Exact.Guarded
import RunningStats.Proofs.Exact.Multiplicity
import RunningStats.Proofs.Exact.Units
import RunningStats.Proofs.Exact.Correction
import RunningStats.Proofs.Exact.Downside
import RunningStats.Proofs.Exact.Confidence
import RunningStats.Proofs.Binary.Spread
import RunningStats.Proofs.Binary.Confidence
import RunningStats.Proofs.Binary.Extent
import RunningStats.Proofs.Binary.Constant
import RunningStats.Proofs.Decimal
import RunningStats.Proofs.Binary.Datum
import RunningStats.Proofs.Reporting
import RunningStats.Proofs.Text
import RunningStats.Proofs.Csv.Rendering
import RunningStats.Proofs.Csv.Loading
import RunningStats.Proofs.Exact.Represented
import RunningStats.Proofs.Checkpoint.Pattern
import RunningStats.Proofs.Checkpoint.State
import RunningStats.Proofs.Checkpoint.Resume
