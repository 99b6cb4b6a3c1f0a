import RunningStats.Scalar
import RunningStats.Binary.Format

/-!
# Native floating point scalars

`Float` and `Float32` are scalars, the two types that statistics are computed in. Their bit patterns
belong to the formats `binary64` and `binary32`, and conversion between the two goes through the
exact datum: widening loses nothing, narrowing rounds once. `Float` is the wide type of both.
-/

namespace RunningStats

/-- A scalar type whose values are the patterns of a binary format. -/
class Patterned (α : Type) where
  /-- The format. -/
  format : Binary.Format
  /-- The bit pattern of a value. -/
  toPattern : α → Nat
  /-- The value of a bit pattern. -/
  ofPattern : Nat → α

namespace Patterned

variable {α : Type} [Patterned α]

/-- What a value stands for. -/
def datum (x : α) : Binary.Datum := (format α).decode (toPattern x)

/-- The value nearest to a datum. -/
def ofDatum (d : Binary.Datum) : α := ofPattern ((format α).encode d)

end Patterned

open Patterned

instance : Patterned Float where
  format := Binary.binary64
  toPattern x := x.toBits.toNat
  ofPattern n := Float.ofBits (UInt64.ofNat n)

instance : Patterned Float32 where
  format := Binary.binary32
  toPattern x := x.toBits.toNat
  ofPattern n := Float32.ofBits (UInt32.ofNat n)

instance : Scalar Float where
  zero := 0
  one := 1
  beq := Float.beq
  decLt := inferInstance
  decLe := inferInstance
  sqrt := Float.sqrt
  isFinite := Float.isFinite
  infinity := 1 / 0
  ofCount := UInt64.toFloat

instance : Scalar Float32 where
  zero := 0
  one := 1
  beq := Float32.beq
  decLt := inferInstance
  decLe := inferInstance
  sqrt := Float32.sqrt
  isFinite := Float32.isFinite
  infinity := 1 / 0
  ofCount := UInt64.toFloat32

instance : Wide Float Float where
  widen x := x
  narrow x := x

instance : Wide Float32 Float where
  widen x := ofDatum (datum x)
  narrow x := ofDatum (datum x)

namespace Patterned

/-- A datum rounded to an integer, a half going away from zero. -/
def roundHalfAway : Binary.Datum → Binary.Datum
  | .finite negative significand exponent =>
    let r := Binary.ratio significand exponent
    .finite negative ((2 * r.1 + r.2) / (2 * r.2)) 0
  | d => d

/-- A value rounded to an integer, a half going away from zero; the sign stays. -/
def round {α : Type} [Patterned α] (x : α) : α := ofDatum (roundHalfAway (datum x))

end Patterned

end RunningStats
