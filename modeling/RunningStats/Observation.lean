import RunningStats.Fault
import RunningStats.Scalar

/-!
# Observations

A value with the weight it carries. Where values and weights come as two parallel slices, they are
a list of observations here.

* `check` is `validate`: an observation is accepted if its weight is finite and not negative and its
  value is finite; the weight is judged first.
* `pair` joins slices of one length (`LengthMismatch`), and `zip` is what an iterator over both
  makes of slices of any lengths.
-/

namespace RunningStats

/-- A value and its weight. -/
structure Observation (α : Type) where
  value : α
  weight : α
  deriving BEq, DecidableEq

namespace Observation

variable {α ω : Type} [Scalar α] [Wide α ω]

/-- A value of weight one. -/
def unit (value : α) : Observation α := ⟨value, 1⟩

/-- Fails unless the weight is finite and not negative and the value is finite. -/
def check (o : Observation α) : Except (Fault ω) Unit :=
  if ¬(Scalar.isFinite o.weight ∧ 0 ≤ o.weight) then .error (.invalidWeight (widen o.weight))
  else if ¬Scalar.isFinite o.value then .error (.nonFiniteValue (widen o.value))
  else .ok ()

/-- The first fault of a list of observations, in order. -/
def checkAll : List (Observation α) → Except (Fault ω) Unit
  | [] => .ok ()
  | o :: os => do
    o.check
    checkAll os

/-- Values paired with weights; the rest of the longer list is dropped. -/
def zip (values weights : List α) : List (Observation α) := List.zipWith mk values weights

omit [Scalar α] [Wide α ω] in
/-- Values paired with as many weights. -/
def pair (values weights : List α) : Except (Fault ω) (List (Observation α)) :=
  if values.length = weights.length then .ok (zip values weights)
  else .error (.lengthMismatch values.length weights.length)

end Observation

end RunningStats
