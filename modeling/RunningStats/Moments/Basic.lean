import RunningStats.Scalar

/-!
# Central moments

Model of `CentralMoments`: the weight of a set of observations, their weighted mean, and the sums of
the second, third and fourth power of the deviations from it, each term times its weight.

* `empty`, `point` and `observe` are `new`, `point` and `observe`. Of `merge`, which changes the
  moments in place, `combine` is the part behind its two early returns.
* The products and quotients stand in the order in which they are evaluated, so rounded arithmetic
  gives the same results.
-/

namespace RunningStats

/-- Weight, mean and weighted sums of powers of the deviations from the mean. -/
structure Moments (α : Type) where
  weight : α
  mean : α
  m2 : α
  m3 : α
  m4 : α
  deriving BEq

namespace Moments

variable {α : Type} [Scalar α]

/-- A set in which every deviation is zero. -/
def concentrated (weight mean : α) : Moments α := ⟨weight, mean, 0, 0, 0⟩

/-- The moments of no observations. -/
def empty : Moments α := concentrated 0 0

/-- The moments of one observation. -/
def point (value weight : α) : Moments α := concentrated weight value

/-- The moments of the union of two disjoint sets, neither of which has weight zero. -/
def combine (a b : Moments α) : Moments α :=
  let three : α := Scalar.ofCount 3
  let four : α := Scalar.ofCount 4
  let six : α := Scalar.ofCount 6
  let wa := a.weight
  let wb := b.weight
  let w := wa + wb
  let d := b.mean - a.mean
  let d2 := d * d
  let d3 := d2 * d
  let d4 := d2 * d2
  { weight := w
    mean := a.mean + d * wb / w
    m2 := a.m2 + b.m2 + d2 * wa * wb / w
    m3 := a.m3 + b.m3 + d3 * wa * wb * (wa - wb) / (w * w)
      + three * d * (wa * b.m2 - wb * a.m2) / w
    m4 := a.m4 + b.m4 + d4 * wa * wb * (wa * wa - wa * wb + wb * wb) / (w * w * w)
      + six * d2 * (wa * wa * b.m2 + wb * wb * a.m2) / (w * w)
      + four * d * (wa * b.m3 - wb * a.m3) / w }

/-- The moments of the union of two disjoint sets. A set of weight zero adds nothing. -/
def merge (a b : Moments α) : Moments α :=
  if Scalar.isZero b.weight then a
  else if Scalar.isZero a.weight then b
  else combine a b

/-- Take in one observation. -/
def observe (m : Moments α) (value weight : α) : Moments α := m.merge (point value weight)

end Moments

end RunningStats
