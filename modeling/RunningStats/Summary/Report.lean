import RunningStats.Decimal.Fixed
import RunningStats.Summary.Queries
import RunningStats.Table.Frame

/-!
# The report of a running summary

Model of `display`: a titled table of every statistic with six decimals; one that has no value shows
as `n/a`.
-/

namespace RunningStats.Summary

open Table (Cell)

variable {α : Type} [Scalar α] [Wide α Float] [Patterned α]

/-- The text of a statistic. -/
def reportValue (value : Except (Fault Float) α) : String :=
  match value with
  | .ok x => Decimal.fixed 6 (Patterned.datum x)
  | .error _ => "n/a"

/-- The statistics with their names, in the order of the report. -/
def reportEntries (s : Summary α) : List (String × String) :=
  [ ("Samples", toString s.samples),
    ("Weight sum", reportValue (.ok s.weightSum)),
    ("Min", reportValue s.minimum),
    ("Max", reportValue s.maximum),
    ("Mean", reportValue s.mean),
    ("Variance", reportValue s.variance),
    ("Std. deviation", reportValue s.standardDeviation),
    ("Skewness", reportValue s.skewness),
    ("Kurtosis", reportValue s.kurtosis),
    ("Error estimate", reportValue s.standardError) ]

/-- The report. -/
def report (s : Summary α) : String :=
  let title := Table.lines none [[⟨"Weighted Statistics", .centre⟩]]
  let heading : List Cell := [⟨"Metric", .centre⟩, ⟨"Value", .centre⟩]
  let rows := s.reportEntries.map fun (name, value) => [Cell.mk name .left, Cell.mk value .right]
  "\n".intercalate (title ++ Table.lines (some heading) rows)

end RunningStats.Summary
