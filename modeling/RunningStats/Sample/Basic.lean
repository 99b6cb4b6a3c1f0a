import RunningStats.Summary.Basic

/-!
# Samples

Model of `WeightedSample`, a list of observations that is kept whole, for estimators that read it
more than once. Its two vectors are of one length, and are one list of observations here.

`ofLists`, `unweighted`, `size`, `isEmpty`, `values`, `weights` and `accumulate` are `new`,
`unweighted`, `len`, `is_empty`, `values`, `weights` and `accumulate`; `ofPairs` collects pairs.
-/

namespace RunningStats

/-- A list of observations. -/
structure Sample (α : Type) where
  observations : List (Observation α)
  deriving BEq

namespace Sample

variable {α : Type}

/-- The sample of no observations. -/
def empty : Sample α := ⟨[]⟩

/-- The number of observations. -/
def size (s : Sample α) : Nat := s.observations.length

/-- The number of observations as a count. -/
def count (s : Sample α) : UInt64 := UInt64.ofNat s.size

/-- Whether there are no observations. -/
def isEmpty (s : Sample α) : Bool := s.observations.isEmpty

/-- The values. -/
def values (s : Sample α) : List α := s.observations.map (·.value)

/-- The weights, in the order of the values. -/
def weights (s : Sample α) : List α := s.observations.map (·.weight)

/-- Values paired with as many weights. -/
def ofLists {ω : Type} (values weights : List α) : Except (Fault ω) (Sample α) :=
  (Observation.pair values weights).map mk

/-- Values paired with weights; the rest of the longer list is dropped. -/
def ofPairs (values weights : List α) : Sample α := ⟨Observation.zip values weights⟩

variable [Scalar α]

/-- Values of weight one. -/
def unweighted (values : List α) : Sample α := ⟨values.map Observation.unit⟩

/-- The running summary of the sample. -/
def accumulate {ω : Type} [Wide α ω] (s : Sample α) : Except (Fault ω) (Summary α) :=
  (Summary.addAll s.observations).result Summary.empty

end Sample

end RunningStats
