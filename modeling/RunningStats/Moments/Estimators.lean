import RunningStats.Moments.Basic

/-!
# Estimators

The estimators of `CentralMoments`: variance, skewness and excess kurtosis in the plug-in forms of
the population the moments describe (`population_variance` and the like), and in the forms corrected
for a sample of `n` observations. None of them checks that its divisors are not zero; the callers
do.
-/

namespace RunningStats.Moments

variable {α : Type} [Scalar α]

/-- The mean square deviation. -/
def populationVariance (m : Moments α) : α := m.m2 / m.weight

/-- The variance with the correction `n / (n - 1)`. -/
def variance (m : Moments α) (n : UInt64) : α :=
  let count : α := Scalar.ofCount n
  m.populationVariance * count / (count - 1)

/-- The mean cube of the deviations, in units of the spread. -/
def populationSkewness (m : Moments α) : α :=
  let v := m.populationVariance
  (m.m3 / m.weight) / (v * Scalar.sqrt v)

/-- The skewness with the correction `n ^ 2 / ((n - 1) * (n - 2))`, over the corrected spread. -/
def skewness (m : Moments α) (n : UInt64) : α :=
  let sd := Scalar.sqrt (m.variance n)
  let count : α := Scalar.ofCount n
  let n1 := count - 1
  let n2 := n1 - 1
  let correction := count * count / (n1 * n2)
  correction * (m.m3 / m.weight) / (sd * sd * sd)

/-- The mean fourth power of the deviations, in units of the spread, less that of a normal
population. -/
def populationKurtosis (m : Moments α) : α :=
  let v := m.populationVariance
  (m.m4 / m.weight) / (v * v) - Scalar.ofCount 3

/-- The excess kurtosis corrected for `n` observations, over the corrected variance. -/
def kurtosis (m : Moments α) (n : UInt64) : α :=
  let v := m.variance n
  let three : α := Scalar.ofCount 3
  let count : α := Scalar.ofCount n
  let n1 := count - 1
  let n2 := n1 - 1
  let n3 := n2 - 1
  let scale := count * count * (count + 1) / (n1 * n2 * n3)
  let shift := three * n1 * n1 / (n2 * n3)
  scale * (m.m4 / m.weight) / (v * v) - shift

end RunningStats.Moments
