import RunningStats.Binary.Format
import RunningStats.FixedPoint.Logarithm

/-!
# Decimal magnitude by the common logarithm

The magnitude of a ratio is the integer part of its common logarithm. A logarithm that is kept in
a binary format is rounded first, and a ratio that falls short of a power of ten by less than the
format can tell is then taken for that power: its rounded magnitude is one more than the exact one
(`magnitude`).
-/

namespace RunningStats.Decimal

open Binary (Format)

/-- The common logarithm of a ratio `num / den` of one or more, rounded to the format, as a
ratio. -/
def roundedLog (f : Format) (num den : Nat) : Nat × Nat :=
  let l := f.rounded (FixedPoint.log10 num den) FixedPoint.one
  Binary.ratio l.1 l.2

/-- The largest integer up to a ratio. -/
def floor (r : Nat × Nat) : Nat := r.1 / r.2

/-- The smallest integer from a ratio on. -/
def ceiling (r : Nat × Nat) : Nat := (r.1 + r.2 - 1) / r.2

/-- The integer part of the common logarithm of a positive ratio, once rounded to the format. -/
def roundedMagnitude (f : Format) (num den : Nat) : Int :=
  if den ≤ num then floor (roundedLog f num den)
  else -(ceiling (roundedLog f den num) : Int)

end RunningStats.Decimal
