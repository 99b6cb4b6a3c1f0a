import RunningStats.CompensatedSum
import RunningStats.Moments.Basic
import RunningStats.Observation

/-!
# Running summaries

Model of `WeightedStatistics`: what is kept of a stream of observations. These are their number,
the extrema of the values, the central moments, and for the values below zero their number and the
compensated sums of their weights and weighted squares. Observations come in one at a time or in
bulk, and the summaries of two disjoint streams merge.

* `Summary` has the fields of `WeightedStatistics` in their order; `empty` is `new`, `isEmpty` and
  `weightSum` are `is_empty` and `weight_sum`.
* `commit` and `merge` are the operations of these names. Neither can fail, so they are functions
  of the summary. `commit` takes value and weight as one `Observation`.
* `Ingestion` is an operation in place that can fail. It carries the summary along and ends with
  the summary *as it was left*, also where it ends with a fault: nothing puts an earlier one back.
  `add`, `addValue`, `addValues` and `addWeighted` are `add`, `add_value`, `add_sequence` and
  `add_weighted_sequence` as such operations, step by step, and `addAll` is the pair of loops that
  the last two share.
* `Ingestion.result` is what remains for a caller who drops the summary of a failed operation.

Counts are 64 bits wide and wrap. The extrema of an empty summary are zero and stand for nothing.
-/

namespace RunningStats

/-- What is kept of a stream of observations. -/
@[ext]
structure Summary (α : Type) where
  samples : UInt64
  min : α
  max : α
  moments : Moments α
  downsideSamples : UInt64
  downsideWeight : CompensatedSum α
  downsideSquares : CompensatedSum α
  deriving BEq

namespace Summary

variable {α ω : Type} [Scalar α]

/-- The summary of no observations. -/
def empty : Summary α where
  samples := 0
  min := 0
  max := 0
  moments := Moments.empty
  downsideSamples := 0
  downsideWeight := CompensatedSum.empty
  downsideSquares := CompensatedSum.empty

/-- Whether nothing has been observed. -/
def isEmpty (s : Summary α) : Bool := s.samples == 0

/-- The sum of the weights. -/
def weightSum (s : Summary α) : α := s.moments.weight

/-- Take in one observation without judging it. -/
def commit (s : Summary α) (o : Observation α) : Summary α :=
  let fresh := s.samples = 0
  let below := o.value < 0
  { samples := s.samples + 1
    min := if fresh then o.value else Scalar.least s.min o.value
    max := if fresh then o.value else Scalar.greatest s.max o.value
    moments := s.moments.observe o.value o.weight
    downsideSamples := if below then s.downsideSamples + 1 else s.downsideSamples
    downsideWeight := if below then s.downsideWeight.add o.weight else s.downsideWeight
    downsideSquares :=
      if below then s.downsideSquares.add (o.weight * o.value * o.value) else s.downsideSquares }

/-- Take in what another summary, of disjoint observations, has taken in. -/
def merge (s t : Summary α) : Summary α :=
  if t.samples = 0 then s
  else
    let fresh := s.samples = 0
    { samples := s.samples + t.samples
      min := if fresh then t.min else Scalar.least s.min t.min
      max := if fresh then t.max else Scalar.greatest s.max t.max
      moments := s.moments.merge t.moments
      downsideSamples := s.downsideSamples + t.downsideSamples
      downsideWeight := s.downsideWeight.merge t.downsideWeight
      downsideSquares := s.downsideSquares.merge t.downsideSquares }

end Summary

/-- An operation on a summary in place, which ends with a result or a fault and either way with the
summary that it leaves. -/
abbrev Summary.Ingestion (α ω : Type) : Type → Type := EStateM (Fault ω) (Summary α)

namespace Summary

variable {α ω : Type}

/-- The summary that an operation leaves, or its fault. -/
def Ingestion.result (op : Ingestion α ω Unit) (s : Summary α) : Except (Fault ω) (Summary α) :=
  match op.run s with
  | .ok () s => .ok s
  | .error e _ => .error e

variable [Scalar α] [Wide α ω]

/-- Take in one observation. -/
def add (o : Observation α) : Ingestion α ω Unit := do
  liftExcept o.check
  modify (commit · o)

/-- Take in one value with weight one. -/
def addValue (value : α) : Ingestion α ω Unit := add (Observation.unit value)

/-- Take in a list of observations: all are checked before the first is committed. -/
def addAll (os : List (Observation α)) : Ingestion α ω Unit := do
  forM os fun o => liftExcept o.check
  forM os fun o => modify (commit · o)

/-- Take in a list of values with weight one. -/
def addValues (values : List α) : Ingestion α ω Unit := addAll (values.map Observation.unit)

/-- Take in values paired with weights. -/
def addWeighted (values weights : List α) : Ingestion α ω Unit := do
  if values.length ≠ weights.length then
    throw (.lengthMismatch values.length weights.length)
  addAll (Observation.zip values weights)

end Summary

end RunningStats
