import RunningStats.Interval.Basic
import RunningStats.StudentT.Quantile
import RunningStats.Summary.Queries

/-!
# Confidence intervals for the mean

Model of `mean_confidence_interval`. The interval reaches to either side of the mean as far as the
standard error times the quantile of Student's distribution with one degree of freedom fewer than
there are observations.

The distribution is a library's. The quantile is a parameter of `meanIntervalWith`, and results
about intervals name what they rely on; `meanInterval` takes the one that is computed here.
-/

namespace RunningStats.Summary

variable {α ω : Type} [Scalar α] [Scalar ω] [Wide α ω]

/-- The probability below the upper bound of a two-sided interval. -/
def upperProbability (level : ω) : ω :=
  Scalar.ofCount 1 / Scalar.ofCount 2 + level / Scalar.ofCount 2

/-- The interval for the mean at a level, with a quantile function of the degrees of freedom and
the probability. -/
def meanIntervalWith (quantile : UInt64 → ω → ω) (s : Summary α) (level : ω) :
    Except (Fault ω) (Interval α ω) := do
  if ¬(0 < level ∧ level < 1) then .error (.invalidConfidence level)
  else
    let error ← s.standardError
    let t : α := narrow (quantile (s.samples - 1) (upperProbability level))
    return Interval.symmetric s.moments.mean (t * error) level

/-- The interval for the mean at a level. -/
def meanInterval [Wide α Float] (s : Summary α) (level : Float) :
    Except (Fault Float) (Interval α Float) :=
  s.meanIntervalWith StudentT.quantile level

end RunningStats.Summary
