import RunningStats.FixedPoint.Basic

/-!
# Logarithms in fixed point

A ratio `r ≥ 1` is divided by the largest power of two below it, which leaves a number from one to
two, and `log r = 2 * artanh ((r - 1) / (r + 1))` takes a power series whose argument is at most a
third.
-/

namespace RunningStats.FixedPoint

-- `^` is the power of the core library, also where a monoid has one of its own
attribute [local instance (2000)] instPowNat

/-- The series `x + x ^ 3 / 3 + x ^ 5 / 5 + …`, from the power reached and its exponent, until the
fuel is spent. -/
def artanhSeries (square : Nat) : (fuel power exponent : Nat) → Nat
  | 0, _, _ => 0
  | fuel + 1, power, exponent =>
    power / exponent + artanhSeries square fuel (mul power square) (exponent + 2)

/-- The inverse hyperbolic tangent of a number up to one third, for which each term of the series
is worth three bits. -/
def artanh (x : Nat) : Nat := artanhSeries (mul x x) (bits / 3) x 1

/-- The natural logarithm of two. -/
def logTwo : Nat := 2 * artanh (one / 3)

/-- The natural logarithm of a ratio `num / den` of one or more. -/
def log (num den : Nat) : Nat :=
  let doublings := (num / den).log2
  let base := den * 2 ^ doublings
  doublings * logTwo + 2 * artanh ((num - base) * one / (num + base))

/-- The common logarithm of a ratio `num / den` of one or more. -/
def log10 (num den : Nat) : Nat := div (log num den) (log 10 1)

end RunningStats.FixedPoint
