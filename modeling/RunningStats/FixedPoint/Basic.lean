/-!
# Fixed point arithmetic

Non-negative reals as natural numbers, in units of `2 ^ -bits`. Every operation rounds down, so a
value is exact to a few units.
-/

namespace RunningStats.FixedPoint

-- `^` is the power of the core library, also where a monoid has one of its own
attribute [local instance (2000)] instPowNat

/-- The binary places kept. -/
def bits : Nat := 256

/-- The number one. -/
def one : Nat := 2 ^ bits

/-- A product. -/
def mul (x y : Nat) : Nat := x * y / one

/-- A quotient. -/
def div (x y : Nat) : Nat := x * one / y

/-- Newton's iteration for the root of `n`, from a start that is not below it. -/
def rootFrom (n x : Nat) : Nat :=
  let y := (x + n / x) / 2
  if y < x then rootFrom n y else x

/-- The integer part of the square root. -/
def root (n : Nat) : Nat := rootFrom n (2 ^ (n.log2 / 2 + 1))

/-- A square root. -/
def sqrt (x : Nat) : Nat := root (x * one)

end RunningStats.FixedPoint
