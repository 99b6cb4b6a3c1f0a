/-!
# Scalars

The arithmetic that every statistic of this library is written over: what `KahanSum`,
`CentralMoments` and `WeightedStatistics` ask of their numbers. A scalar type has the four
operations, negation and a square root, an order and an equality test that may both fail to decide
(a value may differ from itself), a notion of finiteness, and a reading of counts.

* `Scalar.ofCount` is `from_usize`, which never fails on these types; `widen` is `to_f64`, and
  `narrow` is `from_f64`.
* `least` and `greatest` are the operations `min` and `max` of floating point numbers, in which an
  undefined operand loses. Zeros of different signs are equal, and the first of two equal operands
  is kept.
* `Wide` relates a scalar type to the type in which faults and confidence levels are stated.
-/

namespace RunningStats

/-- A type of numbers to compute statistics with. -/
class Scalar (α : Type) extends Zero α, One α, Add α, Sub α, Mul α, Div α, Neg α,
    LT α, LE α, BEq α where
  /-- The strict order can be tested. -/
  decLt : DecidableLT α
  /-- The order can be tested. -/
  decLe : DecidableLE α
  /-- The square root. -/
  sqrt : α → α
  /-- Neither infinite nor undefined. -/
  isFinite : α → Bool
  /-- The bound above every finite value, which the lower end of an empty range takes. -/
  infinity : α
  /-- The value of a count, rounded to the nearest scalar. -/
  ofCount : UInt64 → α

attribute [reducible, instance] Scalar.decLt Scalar.decLe

/-- The wide type `ω` holds every value of `α`, and each of its values has a nearest one in `α`. -/
class Wide (α : Type) (ω : outParam Type) where
  /-- The same number in the wide type. -/
  widen : α → ω
  /-- The nearest number of the narrow type. -/
  narrow : ω → α

export Wide (widen narrow)

namespace Scalar

variable {α : Type} [Scalar α]

/-- A value that differs from itself. -/
def undefined (x : α) : Bool := !(x == x)

/-- The smaller of two values; an undefined one loses. -/
def least (a b : α) : α :=
  if undefined a then b else if undefined b then a else if b < a then b else a

/-- The larger of two values; an undefined one loses. -/
def greatest (a b : α) : α :=
  if undefined a then b else if undefined b then a else if a < b then b else a

/-- Zero of either sign. -/
def isZero (x : α) : Bool := x == 0

end Scalar

end RunningStats
