import RunningStats.Binary.Native
import RunningStats.Decimal.Digits

/-!
# The shortest decimal that reads back

How a floating point number is written where nothing is asked of its digits.
`shortest f significand exponent` is the decimal with the fewest digits that rounds to the given
number of the format `f`, and of those the one nearest to it. `text` writes it positionally, never
with an exponent and without a trailing point.

The decimals that round to a number fill an interval around it, which reaches half a unit of the
last place to either side (half of that below a power of two) and holds its ends when the
significand is even. A grid of decimals meets the interval exactly if one of the number's two
neighbours on the grid lies in it.
-/

namespace RunningStats.Decimal

open Binary (Format Datum)

-- `^` is the power of the core library, also where a monoid has one of its own
attribute [local instance (2000)] instPowNat

/-- The decimals that round to a number, as the number itself and the distances to both ends,
all in quarters of a unit in its last place. -/
structure Rounding where
  value : Nat
  below : Nat
  above : Nat
  /-- The ends themselves round to the number. -/
  closed : Bool

/-- The interval around a positive number of the format. -/
def Rounding.around (f : Format) (significand : Nat) (exponent : Int) : Rounding where
  value := 4 * significand
  below := if significand = 2 ^ f.fractionBits ∧ f.minExponent < exponent then 1 else 2
  above := 2
  closed := significand % 2 == 0

/-- A distance that stays within a bound. -/
def Rounding.within (r : Rounding) (distance bound : Nat) : Bool :=
  if r.closed then distance ≤ bound else distance < bound

/-- The multiple of `10 ^ unit` nearest to the number among those that round to it, if one of the
two neighbours does; of two at one distance the larger. Quarters of the last place are worth
`2 ^ quarter`. -/
def Rounding.onGrid (r : Rounding) (quarter unit : Int) : Option Nat :=
  let up := 2 ^ quarter.toNat * 10 ^ (-unit).toNat
  let step := 2 ^ (-quarter).toNat * 10 ^ unit.toNat
  let value := r.value * up
  let low := value / step
  let toLow := value - low * step
  let toHigh := (low + 1) * step - value
  let lowFits := r.within toLow (r.below * up)
  let highFits := r.within toHigh (r.above * up)
  if lowFits && (!highFits || toLow < toHigh) then some low
  else if highFits then some (low + 1)
  else none

/-- The first grid that meets the interval, each one ten times finer than the one before. -/
def Rounding.firstGrid (r : Rounding) (quarter top : Int) : Nat → Nat → Nat × Int
  | 0, count => ((r.onGrid quarter (top - count)).getD 0, top - count)
  | fuel + 1, count =>
    match r.onGrid quarter (top - count) with
    | some n => (n, top - count)
    | none => r.firstGrid quarter top fuel (count + 1)

/-- Seventeen digits tell any two numbers of the widest format apart. -/
def mostDigits : Nat := 17

/-- The digits, as a natural number, and the exponent of the last one. The first grid tried is the
one above the number, where the next power of ten is its neighbour. -/
def shortest (f : Format) (significand : Nat) (exponent : Int) : Nat × Int :=
  let r := Binary.ratio significand exponent
  (Rounding.around f significand exponent).firstGrid (exponent - 2) (magnitude r.1 r.2 + 1)
    mostDigits 0

/-- A datum of the format with the fewest digits that read back. -/
def ofDatum (f : Format) : Datum → String
  | .nan => "NaN"
  | .infinite negative => sign negative ++ "inf"
  | .finite negative significand exponent =>
    let s := if significand = 0 then (0, 0) else shortest f significand exponent
    sign negative ++ positional s.1 s.2

/-- A number with the fewest digits that read back. -/
def text {α : Type} [Patterned α] (x : α) : String :=
  ofDatum (Patterned.format α) (Patterned.datum x)

end RunningStats.Decimal
