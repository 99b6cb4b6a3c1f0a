import RunningStats.Scalar

/-!
# Compensated sums

Model of `KahanSum`, a running sum that keeps, beside the rounded total, what the last rounding
added to it. The represented total is `sum - compensation`: in exact arithmetic every term added
raises it by just that term, and the compensation is zero after each addition.

`empty`, `add`, `merge` and the field `sum` are `new`, `add`, `merge` and `sum`; `ofList` collects
an iterator. The operations in place are functions here, for none of them can fail.
-/

namespace RunningStats

/-- A rounded total and the excess that rounding left in it. -/
structure CompensatedSum (α : Type) where
  sum : α
  compensation : α
  deriving BEq, DecidableEq

namespace CompensatedSum

variable {α : Type} [Scalar α]

/-- The sum of no terms. -/
def empty : CompensatedSum α := ⟨0, 0⟩

/-- Add one term, less the excess left by the one before. -/
def add (s : CompensatedSum α) (x : α) : CompensatedSum α :=
  let y := x - s.compensation
  let t := s.sum + y
  { sum := t, compensation := (t - s.sum) - y }

/-- Add each term in turn. -/
def addAll (s : CompensatedSum α) (xs : List α) : CompensatedSum α := xs.foldl add s

/-- The sum of a list of terms. -/
def ofList (xs : List α) : CompensatedSum α := addAll empty xs

/-- Add what another sum represents. -/
def merge (s t : CompensatedSum α) : CompensatedSum α := (s.add t.sum).add (-t.compensation)

end CompensatedSum

end RunningStats
