import RunningStats.Decimal.Shortest

/-!
# Faults

Model of `StatsError`: why an observation was not taken in, or why a statistic has no value. A fault
carries the numbers it is about, those of a scalar type in the wide type `ω`.

`empty` is `EmptyAccumulator`, and the other cases have the names of the variants. `message` is the
text of a fault, and `requireSamples` is `require_samples`. `Distribution` is left out: Student's
distribution exists for every number of degrees of freedom that gets so far, and every quantile is
a number of the scalar type.
-/

namespace RunningStats

/-- The cause of a refused observation or an unanswerable query. -/
inductive Fault (ω : Type) where
  /-- A weight that is negative, infinite or undefined. -/
  | invalidWeight (weight : ω)
  /-- As many values as weights were expected. -/
  | lengthMismatch (values weights : Nat)
  /-- Nothing has been observed. -/
  | empty
  /-- Fewer observations than the statistic needs. -/
  | insufficientSamples (required available : UInt64)
  /-- A value that is infinite or undefined. -/
  | nonFiniteValue (value : ω)
  /-- All weights are zero, so nothing can be averaged. -/
  | zeroWeightSum
  /-- All values coincide, so nothing can be standardized. -/
  | zeroVariance
  /-- A confidence level that does not lie strictly between zero and one. -/
  | invalidConfidence (level : ω)
  deriving DecidableEq

namespace Fault

/-- The text of a fault. -/
def message : Fault Float → String
  | invalidWeight weight =>
    "invalid weight " ++ Decimal.text weight ++ ": weights must be non-negative"
  | lengthMismatch values weights =>
    "length mismatch: " ++ toString values ++ " values but " ++ toString weights ++ " weights"
  | empty => "empty accumulator"
  | insufficientSamples required available =>
    "insufficient samples: " ++ toString required ++ " required, " ++ toString available
      ++ " available"
  | nonFiniteValue value => "non-finite value " ++ Decimal.text value
  | zeroWeightSum => "sum of weights is zero"
  | zeroVariance => "null variance"
  | invalidConfidence level => "confidence level " ++ Decimal.text level ++ " outside (0, 1)"

/-- Fails unless at least `required` observations are available. -/
def requireSamples {ω : Type} (required available : UInt64) : Except (Fault ω) Unit :=
  if available = 0 then .error .empty
  else if available < required then .error (.insufficientSamples required available)
  else .ok ()

end Fault

end RunningStats
