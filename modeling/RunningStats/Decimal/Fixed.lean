import RunningStats.Binary.Native
import RunningStats.Decimal.Digits

/-!
# A fixed number of digits

How a floating point number is written with a given number of decimal places, or in scientific
notation with a given number of places. The exact value is rounded once, a half going to the even
digit; the sign stays even if every digit is zero.
-/

namespace RunningStats.Decimal

open Binary (Datum)

-- `^` is the power of the core library, also where a monoid has one of its own
attribute [local instance (2000)] instPowNat

/-- The magnitude `num / den` rounded to a multiple of `10 ^ -places`, in that unit. -/
def roundPlaces (num den places : Nat) : Nat :=
  Binary.roundHalfEven (num * 10 ^ places) den

/-- A datum with exactly `places` decimals. -/
def fixed (places : Nat) : Datum → String
  | .nan => "NaN"
  | .infinite negative => sign negative ++ "inf"
  | .finite negative significand exponent =>
    let r := Binary.ratio significand exponent
    sign negative ++ withPlaces (roundPlaces r.1 r.2 places) places

/-- A positive ratio rounded to `places + 1` significant digits: the digits as a natural number,
and the exponent of the first one. -/
def significant (places num den : Nat) : Nat × Int :=
  let k := magnitude num den
  let scaled := Binary.scale10 num den (places - k)
  let q := Binary.roundHalfEven scaled.1 scaled.2
  if q = 10 ^ (places + 1) then (10 ^ places, k + 1) else (q, k)

/-- A datum in scientific notation with exactly `places` decimals. -/
def scientific (places : Nat) : Datum → String
  | .nan => "NaN"
  | .infinite negative => sign negative ++ "inf"
  | .finite negative significand exponent =>
    let r := Binary.ratio significand exponent
    let rounded := if r.1 = 0 then (0, 0) else significant places r.1 r.2
    sign negative ++ withPlaces rounded.1 places ++ "e" ++ toString rounded.2

end RunningStats.Decimal
