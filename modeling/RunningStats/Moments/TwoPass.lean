import RunningStats.CompensatedSum
import RunningStats.Moments.Basic
import RunningStats.Observation

/-!
# Central moments in two passes

Model of `from_weighted`. The first pass sums the weights and the weighted values, the second the
powers of the deviations from the mean found; all sums are compensated. Rounding must not carry the
mean past the data, so it is held within the extent of the values of positive weight, and where
these coincide the mean is that value and every deviation is zero.

* Values and weights come as observations; the rest of the longer slice is gone before.
* `extent` is the fold of the extrema, without the infinities that it begins with: these are the
  extent of no values, whose lower end `ofObservations` then takes for the mean. An undefined value
  loses against every other one, and is no value here from the start (`weighty`).
-/

namespace RunningStats.Moments

variable {α : Type} [Scalar α]

/-- Take in each observation in turn. -/
def observeAll (m : Moments α) (os : List (Observation α)) : Moments α :=
  os.foldl (fun m o => m.observe o.value o.weight) m

/-- The defined values of positive weight. -/
def weighty (os : List (Observation α)) : List α :=
  (os.filter fun o => decide (0 < o.weight) && !Scalar.undefined o.value).map (·.value)

/-- The smallest and the largest of a list of values, if there are any. -/
def extent : List α → Option (α × α)
  | [] => none
  | x :: xs => some (xs.foldl (fun r x => (Scalar.least r.1 x, Scalar.greatest r.2 x)) (x, x))

/-- The compensated sum of a term of each observation. -/
def total (os : List (Observation α)) (term : Observation α → α) : α :=
  (CompensatedSum.ofList (os.map term)).sum

/-- The sums of the powers of the deviations from a given mean. -/
def around (weight mean : α) (os : List (Observation α)) : Moments α where
  weight := weight
  mean := mean
  m2 := total os fun o =>
    let d := o.value - mean
    o.weight * (d * d)
  m3 := total os fun o =>
    let d := o.value - mean
    o.weight * (d * d) * d
  m4 := total os fun o =>
    let d := o.value - mean
    o.weight * (d * d) * (d * d)

/-- The moments of a list of observations, in two passes. Without any value of positive weight
the range of the values is empty, and the mean is its lower end. -/
def ofObservations (os : List (Observation α)) : Moments α :=
  let weight := total os (·.weight)
  if Scalar.isZero weight then concentrated weight 0
  else
    match extent (weighty os) with
    | none => concentrated weight Scalar.infinity
    | some (lo, hi) =>
      if hi ≤ lo then concentrated weight lo
      else
        let mean := total os (fun o => o.weight * o.value) / weight
        around weight (Scalar.least (Scalar.greatest mean lo) hi) os

end RunningStats.Moments
