import RunningStats.FixedPoint.Basic

/-!
# Angles in fixed point

The arctangent, by its power series after halving the angle, and the circle constant.
-/

namespace RunningStats.FixedPoint

/-- The tangent of half the angle whose sine and cosine are given. -/
def halfTangent (sine cosine : Nat) : Nat := div sine (one + cosine)

/-- The tangent of half the angle whose tangent is given. -/
def halve (x : Nat) : Nat := div x (one + sqrt (one + mul x x))

/-- The series `x - x ^ 3 / 3 + x ^ 5 / 5 - …`, from the power reached and its exponent, until the
fuel is spent. -/
def arctanSeries (square : Nat) : (fuel power exponent : Nat) → Nat
  | 0, _, _ => 0
  | fuel + 1, power, exponent =>
    power / exponent - arctanSeries square fuel (mul power square) (exponent + 2)

/-- The arctangent of a number up to one: the angle is halved six times, which leaves a tangent
so small that each further term of the series is worth twelve bits. -/
def arctan (x : Nat) : Nat :=
  let y := (List.range 6).foldl (fun y _ => halve y) x
  64 * arctanSeries (mul y y) 24 y 1

/-- The ratio of a circle's circumference to its diameter. -/
def pi : Nat := 4 * arctan one

end RunningStats.FixedPoint
