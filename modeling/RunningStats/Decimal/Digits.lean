import RunningStats.Binary.Format

/-!
# Decimal digits

The digits of natural numbers, the decimal magnitude of a ratio, and the three ways in which a
rounded significand is written: with a fixed number of places, positionally from an exponent, and
in scientific notation.
-/

namespace RunningStats.Decimal

/-- How many decimal digits a natural number has; zero has one. -/
def length (n : Nat) : Nat :=
  if n < 10 then 1 else length (n / 10) + 1

/-- The decimal digits of a natural number. -/
def digits (n : Nat) : String := String.ofList (Nat.toDigits 10 n)

/-- A run of zeros. -/
def zeros (n : Nat) : String := String.ofList (List.replicate n '0')

/-- The exponent `k` with `10 ^ k ≤ num / den < 10 ^ (k + 1)`, for a positive ratio. -/
def magnitude (num den : Nat) : Int :=
  if den ≤ num then (length (num / den) : Int) - 1
  else -(length ((den - 1) / num) : Int)

/-- A minus sign, or nothing. -/
def sign (negative : Bool) : String := if negative then "-" else ""

/-- The number `n / 10 ^ places`, written with that many decimal places. -/
def withPlaces (n places : Nat) : String :=
  if places = 0 then digits n
  else
    let text := digits n
    let padded := zeros (places + 1 - text.length) ++ text
    let cut := padded.length - places
    (padded.take cut).toString ++ "." ++ (padded.drop cut).toString

/-- The number `n * 10 ^ e`, written without an exponent. -/
def positional (n : Nat) (e : Int) : String :=
  if 0 ≤ e then digits n ++ zeros e.toNat else withPlaces n (-e).toNat

end RunningStats.Decimal
