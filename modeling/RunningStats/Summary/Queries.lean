import RunningStats.Moments.Estimators
import RunningStats.Summary.Basic

/-!
# Statistics of a running summary

The queries of `WeightedStatistics`. Each first asks for enough observations, then for a positive
sum of weights, then, where the deviations are standardized, for a spread that is not zero; the
first that is missing is the fault.

* `requireMoments` is `moments_for`; `requireSpread` is `nonzero_variance`, and `require_spread` of
  the batch estimators as well.
* `minimum` and `maximum` are `min` and `max`, `standardError` is `error_estimate`; the others have
  the names of the queries.
-/

namespace RunningStats.Summary

variable {α ω : Type} [Scalar α]

/-- Fails unless there are enough observations and some weight. -/
def requireMoments (s : Summary α) (required : UInt64) : Except (Fault ω) Unit := do
  Fault.requireSamples required s.samples
  if Scalar.isZero s.moments.weight then .error .zeroWeightSum else .ok ()

/-- Fails if every deviation from the mean is zero. -/
def requireSpread (m : Moments α) : Except (Fault ω) Unit :=
  if Scalar.isZero m.m2 then .error .zeroVariance else .ok ()

/-- The smallest value observed. -/
def minimum (s : Summary α) : Except (Fault ω) α := do
  Fault.requireSamples 1 s.samples
  return s.min

/-- The largest value observed. -/
def maximum (s : Summary α) : Except (Fault ω) α := do
  Fault.requireSamples 1 s.samples
  return s.max

/-- The weighted mean. -/
def mean (s : Summary α) : Except (Fault ω) α := do
  s.requireMoments 1
  return s.moments.mean

/-- The sample variance. -/
def variance (s : Summary α) : Except (Fault ω) α := do
  s.requireMoments 2
  return s.moments.variance s.samples

/-- The root of the sample variance. -/
def standardDeviation (s : Summary α) : Except (Fault ω) α := do
  return Scalar.sqrt (← s.variance)

/-- The standard error of the mean. -/
def standardError (s : Summary α) : Except (Fault ω) α := do
  return Scalar.sqrt ((← s.variance) / Scalar.ofCount s.samples)

/-- The sample skewness. -/
def skewness (s : Summary α) : Except (Fault ω) α := do
  s.requireMoments 3
  requireSpread s.moments
  return s.moments.skewness s.samples

/-- The sample excess kurtosis. -/
def kurtosis (s : Summary α) : Except (Fault ω) α := do
  s.requireMoments 4
  requireSpread s.moments
  return s.moments.kurtosis s.samples

/-- The mean square of the values below zero, corrected for their number. -/
def downsideVariance (s : Summary α) : Except (Fault ω) α := do
  Fault.requireSamples 1 s.samples
  if s.downsideSamples < 2 then .error (.insufficientSamples 2 s.downsideSamples)
  else
    let weight := s.downsideWeight.sum
    if Scalar.isZero weight then .error .zeroWeightSum
    else
      let count : α := Scalar.ofCount s.downsideSamples
      return s.downsideSquares.sum / weight * count / (count - 1)

/-- The root of the downside variance. -/
def downsideDeviation (s : Summary α) : Except (Fault ω) α := do
  return Scalar.sqrt (← s.downsideVariance)

end RunningStats.Summary
