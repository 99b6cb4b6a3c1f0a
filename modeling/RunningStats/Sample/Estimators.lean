import RunningStats.Moments.Estimators
import RunningStats.Moments.TwoPass
import RunningStats.Sample.Basic
import RunningStats.Summary.Queries

/-!
# Batch estimators

Model of `Statistic` and of the five estimators of a `WeightedSample`: `Mean`, `Variance`,
`Skewness`, `Kurtosis` and `StandardError`. Each comes in the form corrected for the size of the
sample and in the plug-in form of a population (the flag `unbiased`), the mean in one. Every
observation is checked first, then the size of the sample, the sum of the weights, and the spread.

`moments` is `batch_moments`, and `estimate` evaluates any of the estimators; `estimates` evaluates
several, as a tuple of them does.
-/

namespace RunningStats

/-- Corrected for the size of the sample, or taken as it stands. -/
inductive Form where
  | corrected
  | plugIn
  deriving DecidableEq, Repr

/-- A statistic of a sample. -/
inductive Estimator where
  | mean
  | variance (form : Form)
  | skewness (form : Form)
  | kurtosis (form : Form)
  /-- The standard error of the mean, from a variance in the given form. -/
  | standardError (form : Form)
  deriving DecidableEq, Repr

namespace Sample

variable {α ω : Type} [Scalar α] [Wide α ω]

/-- The moments of a sample of at least `required` valid observations with some weight. -/
def moments (s : Sample α) (required : UInt64) : Except (Fault ω) (Moments α) := do
  Observation.checkAll s.observations
  Fault.requireSamples required s.count
  let m := Moments.ofObservations s.observations
  if Scalar.isZero m.weight then .error .zeroWeightSum else .ok m

/-- The variance. -/
def variance (s : Sample α) : Form → Except (Fault ω) α
  | .corrected => do return (← s.moments 2).variance s.count
  | .plugIn => do return (← s.moments 1).populationVariance

/-- The moments of a sample of at least `required` valid observations that do not all coincide. -/
def spreadMoments (s : Sample α) (required : UInt64) : Except (Fault ω) (Moments α) := do
  let m ← s.moments required
  Summary.requireSpread m
  return m

/-- The value of an estimator. -/
def estimate (s : Sample α) : Estimator → Except (Fault ω) α
  | .mean => do return (← s.moments 1).mean
  | .variance form => s.variance form
  | .skewness .corrected => do return (← s.spreadMoments 3).skewness s.count
  | .skewness .plugIn => do return (← s.spreadMoments 2).populationSkewness
  | .kurtosis .corrected => do return (← s.spreadMoments 4).kurtosis s.count
  | .kurtosis .plugIn => do return (← s.spreadMoments 2).populationKurtosis
  | .standardError form => do
    return Scalar.sqrt ((← s.variance form) / Scalar.ofCount s.count)

/-- The values of several estimators. -/
def estimates (s : Sample α) (es : List Estimator) : List (Except (Fault ω) α) :=
  es.map s.estimate

end Sample

end RunningStats
