import RunningStats.Binary.Native

/-!
# Numbers as bit patterns

How a number is written in a checkpoint: as the hexadecimal digits of its bit pattern, as many as
its format has, and an undefined one as `nan`. A document of the narrow format may also give wide
patterns, and the other way round where a field is wide in every document.
-/

namespace RunningStats.Pattern

-- `^` is the power of the core library, also where a monoid has one of its own
attribute [local instance (2000)] instPowNat

/-- The value of a lower-case hexadecimal digit. -/
def digit? (c : Char) : Option Nat :=
  if '0' ≤ c ∧ c ≤ '9' then some (c.toNat - '0'.toNat)
  else if 'a' ≤ c ∧ c ≤ 'f' then some (c.toNat - 'a'.toNat + 10)
  else none

/-- The value of a run of hexadecimal digits. -/
def hex? (cs : List Char) : Option Nat :=
  cs.foldlM (fun n c => (digit? c).map (16 * n + ·)) 0

/-- The last `width` hexadecimal digits of a number. -/
def hex (width n : Nat) : List Char :=
  (List.range width).reverse.map fun i => Nat.digitChar (n / 16 ^ i % 16)

variable {α : Type} [Patterned α]

/-- The digits of a number's pattern, or `nan`. -/
def write (x : α) : String :=
  if Patterned.datum x = .nan then "nan"
  else String.ofList (hex (Patterned.format α).hexDigits (Patterned.toPattern x))

/-- A number of the type's own format, or `nan`. -/
def readOwn (s : String) : Option α :=
  if s = "nan" then some (Patterned.ofPattern (Patterned.format α).nan)
  else if s.length = (Patterned.format α).hexDigits then
    (hex? s.toList).map Patterned.ofPattern
  else none

/-- A number of the type in which a document of the format is kept; wide patterns are narrowed. -/
def read [Wide α Float] (s : String) : Option α :=
  readOwn s <|> (readOwn (α := Float) s).map narrow

/-- A wide number in a document kept in a format, whose own patterns are widened. -/
def readWide (α : Type) [Patterned α] [Wide α Float] (s : String) : Option Float :=
  readOwn s <|> (readOwn (α := α) s).map widen

end RunningStats.Pattern
