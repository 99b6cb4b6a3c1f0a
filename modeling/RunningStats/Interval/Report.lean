import RunningStats.Decimal.Fixed
import RunningStats.Decimal.Magnitude
import RunningStats.Decimal.Shortest
import RunningStats.Interval.Basic

/-!
# Reporting an interval

The `Display` of an `Interval`, written as `estimate ± half width (level%)`. Both numbers stop at
the decimal of the second significant digit of the half width; from ten on they are whole. A half
width that is not a positive finite number has no such digit, and the numbers are written in full.

Where the half width begins is a parameter of `reportWith`. `report` reads it off the common
logarithm in the 64-bit format, so that a half width next to a power of ten counts as that power.
The logarithm is taken to be rounded correctly, which the one that is used need not be.
-/

namespace RunningStats.Interval

open Binary (Datum)

variable {α : Type} [Scalar α] [Wide α Float] [Patterned α]

/-- How many decimals reach the second significant digit of a number whose first one stands for
`10 ^ magnitude`. -/
def reportPlaces (magnitude : Int) : Nat := (1 - magnitude).toNat

/-- The confidence level in percent, to six decimals. -/
def percent (confidence : Float) : Float :=
  Patterned.round (confidence * 100000000) / 1000000

/-- The text `estimate ± half width (level%)`, where `magnitude` finds the first digit of a
positive ratio. -/
def reportWith (magnitude : Nat → Nat → Int) (i : Interval α Float) : String :=
  let level := Decimal.text (percent i.confidence)
  let line (estimate half : String) := estimate ++ " ± " ++ half ++ " (" ++ level ++ "%)"
  match Patterned.datum (widen i.halfWidth) with
  | half@(.finite false (significand + 1) exponent) =>
    let r := Binary.ratio (significand + 1) exponent
    let places := reportPlaces (magnitude r.1 r.2)
    line (Decimal.fixed places (Patterned.datum (widen i.estimate))) (Decimal.fixed places half)
  | _ => line (Decimal.text i.estimate) (Decimal.text i.halfWidth)

/-- The text `estimate ± half width (level%)`. -/
def report (i : Interval α Float) : String :=
  i.reportWith (Decimal.roundedMagnitude Binary.binary64)

end RunningStats.Interval
