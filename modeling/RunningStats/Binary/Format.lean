/-!
# Binary floating point formats

A format has a precision and a width of the exponent field. Its bit patterns are read as data
(`Format.decode`), and every non-negative ratio has a nearest pattern, ties going to the even
significand (`Format.nearest`). All arithmetic is exact, on natural numbers.
-/

namespace RunningStats.Binary

-- `^` is the power of the core library, also where a monoid has one of its own
attribute [local instance (2000)] instPowNat

/-- An interchange format: significand bits, the leading one included, and exponent bits. -/
structure Format where
  precision : Nat
  exponentBits : Nat
  deriving DecidableEq, Repr

/-- What a bit pattern stands for; a finite datum is `significand * 2 ^ exponent` with a sign. -/
inductive Datum where
  | nan
  | infinite (negative : Bool)
  | finite (negative : Bool) (significand : Nat) (exponent : Int)
  deriving DecidableEq, Repr

/-- The 64-bit format. -/
def binary64 : Format := ⟨53, 11⟩

/-- The 32-bit format. -/
def binary32 : Format := ⟨24, 8⟩

/-- A quotient rounded to the nearest integer, a half to the even one. -/
def roundHalfEven (num den : Nat) : Nat :=
  let q := num / den
  let r := num % den
  if 2 * r < den then q
  else if den < 2 * r then q + 1
  else if q % 2 = 0 then q else q + 1

/-- The ratio `num / den` scaled by `2 ^ e`. -/
def scale2 (num den : Nat) (e : Int) : Nat × Nat :=
  (num * 2 ^ e.toNat, den * 2 ^ (-e).toNat)

/-- The ratio `num / den` scaled by `10 ^ e`. -/
def scale10 (num den : Nat) (e : Int) : Nat × Nat :=
  (num * 10 ^ e.toNat, den * 10 ^ (-e).toNat)

/-- A finite magnitude as a ratio. -/
def ratio (significand : Nat) (exponent : Int) : Nat × Nat :=
  scale2 significand 1 exponent

namespace Format

variable (f : Format)

/-- The bits below the exponent field. -/
def fractionBits : Nat := f.precision - 1

/-- The exponent of the last place of the smallest numbers. -/
def minExponent : Int := 3 - 2 ^ (f.exponentBits - 1) - f.precision

/-- The pattern of the sign bit alone. -/
def signBit : Nat := 2 ^ (f.fractionBits + f.exponentBits)

/-- The pattern of positive infinity. -/
def infinity : Nat := (2 ^ f.exponentBits - 1) * 2 ^ f.fractionBits

/-- The pattern of an undefined value. -/
def nan : Nat := f.infinity + 2 ^ (f.fractionBits - 1)

/-- Hexadecimal digits of a pattern. -/
def hexDigits : Nat := (f.precision + f.exponentBits) / 4

/-- The pattern of a sign followed by a magnitude. -/
def signed (negative : Bool) (magnitude : Nat) : Nat :=
  if negative then f.signBit + magnitude else magnitude

/-- What a pattern stands for. -/
def decode (pattern : Nat) : Datum :=
  let negative := pattern / f.signBit % 2 == 1
  let field := pattern / 2 ^ f.fractionBits % 2 ^ f.exponentBits
  let fraction := pattern % 2 ^ f.fractionBits
  if field = 2 ^ f.exponentBits - 1 then
    if fraction = 0 then .infinite negative else .nan
  else if field = 0 then .finite negative fraction f.minExponent
  else .finite negative (2 ^ f.fractionBits + fraction) (f.minExponent + field - 1)

/-- The exponent of the last place of the number nearest to a positive ratio. -/
def unitExponent (num den : Nat) : Int :=
  let k : Int := num.log2 - den.log2
  let scaled := scale2 num den (-k)
  let top := if scaled.2 ≤ scaled.1 then k else k - 1
  max f.minExponent (top - f.fractionBits)

/-- The number nearest to a ratio, as a significand and an exponent; a tie goes to the even
significand. Rounding may carry the significand to the power of two above it. -/
def rounded (num den : Nat) : Nat × Int :=
  let e := f.unitExponent num den
  let scaled := scale2 num den (-e)
  (roundHalfEven scaled.1 scaled.2, e)

/-- The pattern nearest to `num / den`, a magnitude beyond the largest finite one becoming
infinite. The patterns of one sign are in the order of their magnitudes, so a carry leads to the
pattern after the last one of its exponent. -/
def nearest (negative : Bool) (num den : Nat) : Nat :=
  if num = 0 then f.signed negative 0
  else
    let r := f.rounded num den
    f.signed negative (min f.infinity ((r.2 - f.minExponent).toNat * 2 ^ f.fractionBits + r.1))

/-- The pattern nearest to a datum. -/
def encode : Datum → Nat
  | .nan => f.nan
  | .infinite negative => f.signed negative f.infinity
  | .finite negative significand exponent =>
    let r := ratio significand exponent
    f.nearest negative r.1 r.2

end Format

end RunningStats.Binary
