import RunningStats.Scalar

/-!
# Confidence intervals

Model of `Interval`: two bounds around a point estimate, at a confidence level that is a number of
the wide type. `symmetric`, `contains`, `width` and `halfWidth` are the methods of these names.
-/

namespace RunningStats

/-- Bounds around an estimate, with the level of confidence. -/
structure Interval (α ω : Type) where
  lower : α
  upper : α
  estimate : α
  confidence : ω
  deriving BEq

namespace Interval

variable {α ω : Type} [Scalar α]

/-- The interval that reaches as far below the estimate as above it. -/
def symmetric (estimate error : α) (confidence : ω) : Interval α ω where
  lower := estimate - error
  upper := estimate + error
  estimate := estimate
  confidence := confidence

/-- Whether a value lies within the bounds. -/
def contains (i : Interval α ω) (value : α) : Bool :=
  decide (i.lower ≤ value) && decide (value ≤ i.upper)

/-- The distance between the bounds. -/
def width (i : Interval α ω) : α := i.upper - i.lower

/-- Half of the width. -/
def halfWidth (i : Interval α ω) : α := i.width / (1 + 1)

end Interval

end RunningStats
